import CallByNeed.Proofs.Promises
import Mathlib.Data.List.Nodup

/-!
Tallies of values computed ahead. A tally says which promises carry such a value, for which call site, and
whether the value was used or given up; which call sites are distrusted; and what was counted. Five kinds of
steps change it. From any moment to a later one, a distrusted call site stays distrusted, no value is
computed ahead for it, and none is used; a value that was used is not given up, nor the other way round.
-/
namespace CallByNeed

open Relation (ReflTransGen)

/-- What became of a value that was computed ahead. -/
inductive Fate where
  | pending | used | givenUp
deriving DecidableEq

/-- A value computed ahead, by the call site it was computed for and what became of it. -/
structure Advance where
  site : NodeId
  fate : Fate

def Promise.advance? (p : Promise) : Option Advance :=
  p.eager.map fun eager => ⟨eager.site,
    if eager.deoptimized then .givenUp else if p.state.value?.isSome then .used else .pending⟩

@[ext]
structure Tally where
  /-- The values computed ahead, for each promise in the order in which the promises were made. -/
  advances : List (Option Advance)
  distrusted : List NodeId
  created : Nat
  hits : Nat
  deopts : Nat

def Store.tally (s : Store) (stats : Stats) : Tally :=
  ⟨s.promises.toList.map Promise.advance?, s.distrusted, stats.eagerPromisesCreated, stats.eagerHits,
    stats.eagerDeopts⟩

def Session.tally (s : Session) : Tally := s.store.tally s.stats

namespace Tally

/-- A promise is made without a value computed ahead, or with one; such a value is used, or given up; a
call site loses trust otherwise. Values are computed ahead and used for call sites that are trusted. -/
inductive Step : Tally → Tally → Prop
  | plain (t : Tally) : Step t { t with advances := t.advances ++ [none] }
  | ahead {t : Tally} {site : NodeId} : site ∉ t.distrusted →
    Step t { t with advances := t.advances ++ [some ⟨site, .pending⟩], created := t.created + 1 }
  | use {t : Tally} {i : Nat} {site : NodeId} : t.advances[i]? = some (some ⟨site, .pending⟩) →
    site ∉ t.distrusted →
    Step t { t with advances := t.advances.set i (some ⟨site, .used⟩), hits := t.hits + 1 }
  | giveUp {t : Tally} {i : Nat} {site : NodeId} : t.advances[i]? = some (some ⟨site, .pending⟩) →
    Step t { t with
      advances := t.advances.set i (some ⟨site, .givenUp⟩)
      distrusted := t.distrusted.insert site
      deopts := t.deopts + 1 }
  | distrust (t : Tally) (site : NodeId) : Step t { t with distrusted := t.distrusted.insert site }

/-- From one moment of a run to a later one. -/
abbrev Course : Tally → Tally → Prop := ReflTransGen Step

/-- Promises are made, none of them with a value computed ahead. -/
def Quiet (a b : Tally) : Prop := ∃ n, b = { a with advances := a.advances ++ List.replicate n none }

/-- What one moment of a run and a later one have to do with each other. -/
structure Later (a b : Tally) : Prop where
  /-- Trust that is lost stays lost. -/
  distrusted : a.distrusted ⊆ b.distrusted
  /-- Only a value that is pending meets a fate, and only a new promise gets a value. -/
  settled {i : Nat} {v : Option Advance} :
    a.advances[i]? = some v → (∀ site, v ≠ some ⟨site, .pending⟩) → b.advances[i]? = some v
  /-- For a call site that is distrusted, no value is computed ahead and none is used. -/
  barred {i : Nat} {v : Advance} : b.advances[i]? = some (some v) → v.site ∈ a.distrusted →
    a.advances[i]? = some (some v) ∨ v.fate = .givenUp ∧ a.advances[i]? = some (some ⟨v.site, .pending⟩)

/-- Everything is counted, and counted once. -/
structure Balanced (t : Tally) : Prop where
  lost : t.distrusted.Nodup
  created : t.created = t.advances.countP Option.isSome
  hits : t.hits = t.advances.countP (·.any (·.fate = .used))
  deopts : t.deopts = t.advances.countP (·.any (·.fate = .givenUp))

namespace Quiet

theorem refl (t : Tally) : t.Quiet t := ⟨0, by simp⟩

theorem trans {a b c : Tally} (first : a.Quiet b) (second : b.Quiet c) : a.Quiet c := by
  obtain ⟨n, rfl⟩ := first
  obtain ⟨k, rfl⟩ := second
  exact ⟨n + k, by simp [List.append_assoc]⟩

theorem course {a b : Tally} (quiet : a.Quiet b) : Course a b := by
  obtain ⟨n, rfl⟩ := quiet
  induction n with
  | zero => simpa using ReflTransGen.refl
  | succ n ih =>
    have more := ih.tail (.plain _)
    simpa [List.replicate_succ'] using more

end Quiet

namespace Later

theorem refl (t : Tally) : t.Later t :=
  ⟨fun _ member => member, fun there _ => there, fun there _ => .inl there⟩

theorem trans {a b c : Tally} (first : a.Later b) (second : b.Later c) : a.Later c where
  distrusted := fun _ member => second.distrusted (first.distrusted member)
  settled there settled := second.settled (first.settled there settled) settled
  barred there lost := by
    rcases second.barred there (first.distrusted lost) with before | ⟨givenUp, before⟩
    · exact first.barred before lost
    · rcases first.barred before lost with earlier | ⟨impossible, _⟩
      · exact .inr ⟨givenUp, earlier⟩
      · cases impossible

/-- A promise is made. -/
theorem push {a : Tally} {made : Option Advance} (trusted : ∀ v, made = some v → v.site ∉ a.distrusted)
    (created hits deopts : Nat) :
    a.Later ⟨a.advances ++ [made], a.distrusted, created, hits, deopts⟩ where
  distrusted := fun _ member => member
  settled {i _} there _ := by
    have inside : i < a.advances.length := (List.getElem?_eq_some_iff.mp there).1
    rw [List.getElem?_append_left inside]
    exact there
  barred {i v} there lost := by
    rcases Nat.lt_or_ge i a.advances.length with inside | outside
    · rw [List.getElem?_append_left inside] at there
      exact .inl there
    · rw [List.getElem?_append_right outside, List.getElem?_singleton] at there
      split at there
      · exact absurd lost (trusted v (Option.some.inj there))
      · cases there

/-- A value that was pending meets its fate. -/
theorem settle {a : Tally} {i : Nat} {site : NodeId} {fate : Fate} {distrusted : List NodeId}
    (pending : a.advances[i]? = some (some ⟨site, .pending⟩)) (grown : a.distrusted ⊆ distrusted)
    (fair : fate = .givenUp ∨ site ∉ a.distrusted) (created hits deopts : Nat) :
    a.Later ⟨a.advances.set i (some ⟨site, fate⟩), distrusted, created, hits, deopts⟩ where
  distrusted := grown
  settled {j v} there settled := by
    have apart : i ≠ j := by
      rintro rfl
      cases there.symm.trans pending
      exact settled site rfl
    rw [List.getElem?_set_ne apart]
    exact there
  barred {j v} there lost := by
    by_cases same : i = j
    · subst same
      rw [List.getElem?_set_self (List.getElem?_eq_some_iff.mp pending).1] at there
      cases there
      exact .inr ⟨fair.resolve_right fun trusted => trusted lost, pending⟩
    · rw [List.getElem?_set_ne same] at there
      exact .inl there

end Later

theorem Step.later {a b : Tally} (step : Step a b) : a.Later b := by
  cases step with
  | plain => exact .push (by simp) _ _ _
  | ahead trusted =>
    refine .push ?_ _ _ _
    rintro _ ⟨⟩
    exact trusted
  | use pending trusted => exact .settle pending (fun _ member => member) (.inr trusted) _ _ _
  | giveUp pending => exact .settle pending (fun _ => List.mem_insert_of_mem) (.inl rfl) _ _ _
  | distrust site =>
    exact ⟨fun _ => List.mem_insert_of_mem, fun there _ => there, fun there _ => .inl there⟩

theorem Course.later {a b : Tally} (course : Course a b) : a.Later b := by
  induction course with
  | refl => exact .refl a
  | tail _ step ih => exact ih.trans step.later

/-- How many entries are of a kind, before and after a value that was pending met its fate. -/
theorem countP_settled {vs : List (Option Advance)} {i : Nat} {site : NodeId}
    (pending : vs[i]? = some (some ⟨site, .pending⟩)) (p : Option Advance → Bool) (fate : Fate)
    (passed : p (some ⟨site, .pending⟩) = true → p (some ⟨site, fate⟩) = true) :
    (vs.set i (some ⟨site, fate⟩)).countP p = vs.countP p +
      if p (some ⟨site, fate⟩) && !p (some ⟨site, .pending⟩) then 1 else 0 := by
  obtain ⟨inside, there⟩ := List.getElem?_eq_some_iff.mp pending
  rw [List.countP_set inside, there]
  cases before : p (some ⟨site, .pending⟩) with
  | false => simp
  | true =>
    have counted : 0 < vs.countP p :=
      List.countP_pos_iff.mpr ⟨_, List.mem_of_getElem? pending, before⟩
    simp [passed before]
    omega

/-- No call site loses trust twice. -/
theorem Step.nodup {a b : Tally} (step : Step a b) (lost : a.distrusted.Nodup) : b.distrusted.Nodup := by
  cases step with
  | plain | ahead | use => exact lost
  | giveUp | distrust => exact lost.insert

/-- What is counted stays in step with what becomes of the values computed ahead. -/
theorem Step.balanced {a b : Tally} (step : Step a b) (balanced : a.Balanced) : b.Balanced := by
  have lost := step.nodup balanced.lost
  obtain ⟨_, created, hits, deopts⟩ := balanced
  cases step with
  | plain | ahead => exact ⟨lost, by simp [created], by simp [hits], by simp [deopts]⟩
  | use pending | giveUp pending =>
    refine ⟨lost, ?_, ?_, ?_⟩
    all_goals
      dsimp only
      rw [countP_settled pending _ _ (by simp)]
      simp [created, hits, deopts]
  | distrust site => exact ⟨lost, created, hits, deopts⟩

theorem Course.balanced {a b : Tally} (course : Course a b) (balanced : a.Balanced) : b.Balanced := by
  induction course with
  | refl => exact balanced
  | tail _ step ih => exact step.balanced ih

/-- No value is both used and given up. -/
theorem Balanced.within {t : Tally} (balanced : t.Balanced) : t.hits + t.deopts ≤ t.created := by
  rw [balanced.created, balanced.hits, balanced.deopts]
  induction t.advances with
  | nil => exact Nat.le_refl _
  | cons v rest ih =>
    simp only [List.countP_cons]
    rcases v with _ | ⟨site, _ | _ | _⟩ <;> simp <;> omega

end Tally

/-! The tally of a session. -/

/-- No value computed ahead is left to be used. -/
def Promise.Settled (p : Promise) : Prop := ∀ eager, p.eager = some eager → eager.deoptimized = true

namespace Promise

theorem settled_iff {p : Promise} : p.Settled ↔ ∀ v, p.advance? = some v → v.fate = .givenUp := by
  unfold Settled advance?
  cases p.eager with
  | none => simp
  | some eager =>
    cases given : eager.deoptimized with
    | true => simp [given]
    | false => cases p.state.value?.isSome <;> simp [given]

theorem advance?_pending {p : Promise} {eager : EagerValue} (ahead : p.eager = some eager)
    (standing : eager.deoptimized = false) (waiting : p.state.value? = none) :
    p.advance? = some ⟨eager.site, .pending⟩ := by
  simp [advance?, ahead, standing, waiting]

/-- The state of a promise does not matter once nothing is left to be used. -/
theorem Settled.advance? {p : Promise} (settled : p.Settled) (state : PromiseState) :
    Promise.advance? { p with state } = p.advance? := by
  unfold Promise.advance?
  cases ahead : p.eager with
  | none => rfl
  | some eager => simp [settled eager ahead]

end Promise

namespace Store

variable {s t : Store}

theorem trusts_iff {site : NodeId} : s.trusts site = true ↔ site ∉ s.distrusted := by simp [trusts]

theorem tally_of_same (promises : t.promises = s.promises) (distrusted : t.distrusted = s.distrusted)
    (stats : Stats) : t.tally stats = s.tally stats := by
  unfold tally
  rw [promises, distrusted]

theorem tally_addPromise (p : Promise) (s : Store) (stats : Stats) : (addPromise p s).2.tally stats =
    { s.tally stats with advances := (s.tally stats).advances ++ [p.advance?] } := by
  simp [tally, addPromise]

theorem tally_distrust (site : NodeId) (s : Store) (stats : Stats) : (s.distrust site).tally stats =
    { s.tally stats with distrusted := (s.tally stats).distrusted.insert site } := by
  unfold distrust trusts tally
  by_cases lost : site ∈ s.distrusted
  · simp [lost]
  · simp [lost]

theorem advance_at {id : PromiseId} (inside : id.index < s.promises.size) (stats : Stats) :
    (s.tally stats).advances[id.index]? = some (s.promise id).advance? := by
  simp [tally, promise, inside]

theorem tally_modifyPromise (s : Store) (id : PromiseId) (f : Promise → Promise) (stats : Stats) :
    (s.modifyPromise id f).tally stats = { s.tally stats with
      advances := (s.tally stats).advances.set id.index (f (s.promise id)).advance? } := by
  refine Tally.ext (List.ext_getElem? fun i => ?_) rfl rfl rfl rfl
  by_cases same : id.index = i
  · subst same
    by_cases inside : id.index < s.promises.size
    · simp [tally, modifyPromise, promise, inside]
    · simp [tally, modifyPromise, inside]
  · simp [tally, modifyPromise, same]

/-- A change of a promise after which its value computed ahead is where it was. -/
theorem tally_life {id : PromiseId} {f : Promise → Promise}
    (same : (f (s.promise id)).advance? = (s.promise id).advance?) (stats : Stats) :
    (s.modifyPromise id f).tally stats = s.tally stats := by
  rw [tally_modifyPromise, same]
  refine Tally.ext (List.ext_getElem? fun i => ?_) rfl rfl rfl rfl
  by_cases here : id.index = i
  · subst here
    by_cases inside : id.index < s.promises.size
    · rw [advance_at inside, List.getElem?_set_self]
      simpa [tally] using inside
    · simp [tally, inside]
  · simp [here]

/-! The steps that have to do with values computed ahead. -/

theorem tally_lost (site : NodeId) (s : Store) (stats : Stats) :
    (s.tally stats).Step ((s.distrust site).tally stats) := by
  rw [tally_distrust]
  exact .distrust _ site

theorem tally_ahead {eager : EagerValue} (standing : eager.deoptimized = false)
    (trusted : s.trusts eager.site = true) (e : Expr) (env : EnvId) (caller : RecordId) (stats : Stats) :
    (s.tally stats).Step ((eagerPromise e env caller eager s).2.tally
      { stats with eagerPromisesCreated := stats.eagerPromisesCreated + 1 }) := by
  have made := tally_addPromise ⟨e, .unevaluated env, .supplied, some caller, some eager⟩ s
    { stats with eagerPromisesCreated := stats.eagerPromisesCreated + 1 }
  rw [Promise.advance?_pending rfl standing rfl] at made
  change (s.tally stats).Step ((addPromise _ s).2.tally _)
  rw [made]
  exact .ahead (trusts_iff.mp trusted)

section Fate

variable {id : PromiseId} {env : EnvId} {eager : EagerValue}
  (waiting : (s.promise id).state = .unevaluated env) (ahead : (s.promise id).eager = some eager)
  (standing : eager.deoptimized = false)
include waiting ahead standing

theorem pending_at (stats : Stats) :
    (s.tally stats).advances[id.index]? = some (some ⟨eager.site, .pending⟩) := by
  have evaluating : (s.promise id).state.value? = none := by
    rw [waiting]
    rfl
  rw [advance_at (waiting_inside evaluating), Promise.advance?_pending ahead standing evaluating]

theorem tally_used (trusted : s.trusts eager.site = true) (v : Value) (stats : Stats) :
    (s.tally stats).Step ((s.fulfil id v).tally { stats with
      eagerHits := stats.eagerHits + 1
      promisesForced := stats.promisesForced + 1 }) := by
  unfold fulfil setPromiseState
  rw [tally_modifyPromise]
  have used : Promise.advance? { s.promise id with state := .evaluated v } = some ⟨eager.site, .used⟩ := by
    simp [Promise.advance?, ahead, standing, PromiseState.value?]
  rw [used]
  exact .use (pending_at waiting ahead standing stats) (trusts_iff.mp trusted)

theorem tally_givenUp (stats : Stats) :
    (s.tally stats).Step (((s.deoptimize id).distrust eager.site).tally
      { stats with eagerDeopts := stats.eagerDeopts + 1 }) := by
  rw [tally_distrust]
  unfold deoptimize
  rw [tally_modifyPromise]
  have givenUp : Promise.advance? { s.promise id with
      eager := (s.promise id).eager.map ({ · with deoptimized := true }) } =
        some ⟨eager.site, .givenUp⟩ := by
    simp [Promise.advance?, ahead]
  rw [givenUp]
  exact .giveUp (pending_at waiting ahead standing stats)

end Fate
end Store
end CallByNeed
