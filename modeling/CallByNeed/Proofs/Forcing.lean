import CallByNeed.Proofs.Rules

/-!
Forcing and the missingness probe, for a property of computations to which the life of a promise is a
change of the store like any other.
-/
namespace CallByNeed.Rules

theorem holds_promisedBinding (L : Rules) (p : Promise) : L.Holds (promisedBinding p) := by
  unfold promisedBinding
  split
  · exact L.holds_readHeap _
  · exact L.value _

/-- Any change of a promise that exists is among the changes a property allows, and so are the loss of trust
in a call site, and counting promises that are fulfilled and values that are given up. -/
structure Forcing (L : Rules) : Prop where
  life (id : PromiseId) (f : Promise → Promise) (s : Store) : L.Grows s (s.modifyPromise id f)
  distrusting (site : NodeId) (s : Store) : L.Grows s (s.distrust site)
  hit : L.Holds (count fun c =>
    { c with eagerHits := c.eagerHits + 1, promisesForced := c.promisesForced + 1 })
  fulfilled : L.Holds (count fun c => { c with promisesForced := c.promisesForced + 1 })
  givenUp : L.Holds (count fun c => { c with eagerDeopts := c.eagerDeopts + 1 })

namespace Forcing

variable {L : Rules} (free : L.Forcing)
include free

theorem holds_fulfil (v : Value) (id : PromiseId) :
    L.Holds (modifyStore fun store => (store.share v).fulfil id v) :=
  L.holds_modifyStore fun s =>
    Store.Chained.trans (Store.share_moves v s) (free.life id _ (s.share v))

theorem holds_takeEagerValue (id : PromiseId) : L.Holds (takeEagerValue id) := by
  refine L.reading (fun _ _ _ _ => rfl) fun s => ?_
  split
  · exact L.value _
  · rename_i eager _
    have given (t : Store) : L.Grows t ((t.deoptimize id).distrust eager.site) :=
      Store.Chained.trans (free.life id _ t) (free.distrusting eager.site (t.deoptimize id))
    split
    · exact L.value _
    · split
      · exact L.andThen (free.holds_fulfil _ _) fun _ => L.andThen free.hit fun _ => L.value _
      · exact L.andThen (L.holds_modifyStore given) fun _ => L.andThen free.givenUp fun _ => L.value _

theorem holds_beginEvaluation (id : PromiseId) : L.Holds (onStore (Store.beginEvaluation id)) := by
  refine L.storing (Store.moves_read fun s => ?_)
  split
  · exact Store.moves_modify fun t => free.life id _ t
  · exact Store.moves_throw _

theorem holds_evaluatePromise {ev : Evaluator} (h : L.Evaluates ev) (id : PromiseId) (env : EnvId)
    (caller : RecordId) : L.Holds (evaluatePromise ev id env caller) := by
  refine L.andThen (free.holds_beginEvaluation id) fun _ => L.reading (fun _ _ _ _ => rfl) fun s =>
    L.observing (L.holds_underRecord rfl fun _ => h _ _ _) (fun r => ?_) fun _ _ _ => rfl
  split
  · exact L.andThen (free.holds_fulfil _ _) fun _ => L.andThen free.fulfilled fun _ => L.value _
  · exact L.andThen (L.holds_modifyStore (free.life id _)) fun _ => L.holds_throw _

theorem holds_force {ev : Evaluator} (h : L.Evaluates ev) (id : PromiseId) (caller : RecordId) :
    L.Holds (force ev id caller) := by
  refine L.reading (fun _ _ _ _ => rfl) fun s => ?_
  split
  · exact L.value _
  · split
    · exact L.holds_failAt _ _
    · exact L.value _
  · refine L.andThen (free.holds_takeEagerValue id) fun found => ?_
    split
    · exact L.value _
    · exact L.andThen (L.holds_ensureLazy _) fun _ => L.andThen L.polling fun _ =>
        free.holds_evaluatePromise h _ _ _

theorem holds_isMissingWithin (steps : Nat) (outermost : Bool) (v : Value) :
    L.Holds (isMissingWithin steps outermost v) := by
  fun_induction isMissingWithin steps outermost v with
  | case1 | case3 | case5 => exact L.value _
  | case2 => exact L.reading (fun _ _ _ _ => rfl) fun _ => L.value _
  | case4 steps outermost id ih =>
    refine L.reading (fun _ _ _ _ => rfl) fun s => ?_
    dsimp only
    split
    · exact L.value _
    · split
      · exact L.value _
      · exact L.value _
      · split
        · exact L.value _
        · refine L.andThen (L.holds_promisedBinding _) fun found => ?_
          split
          · exact L.value _
          · exact L.andThen (free.holds_beginEvaluation id) fun _ =>
              L.observing (ih _) (fun _ => L.andThen (L.holds_modifyStore (free.life id _)) fun _ =>
                L.holds_resume _) fun _ _ _ => rfl

theorem holds_isMissingArgument (name : Name) (env : EnvId) :
    L.Holds (isMissingArgument name env) := by
  refine L.andThen (L.holds_readHeap _) fun found => ?_
  split
  · exact L.failure _
  · exact L.reading (fun _ _ _ _ => rfl) fun _ => free.holds_isMissingWithin _ _ _

end Forcing
end CallByNeed.Rules
