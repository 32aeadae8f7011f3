import CallByNeed.Proofs.Mentions
import CallByNeed.Proofs.Promises

/-!
What the body of a function always reads, and what the analysis of it says. An evaluation of the body
that comes to a value visits the parts of it that always run, in order and each with the session it comes
to them with. A formal that the analysis marks is read at such a part, before the body itself assigns to
it, or else a variable without a name is. Reading a formal that is still bound to its promise forces the
promise. But code that runs while another formal is forced may have bound it anew.
-/
namespace CallByNeed

open Relation (ReflTransGen)

mutual

/-- Whether the code of an expression assigns to a name. What a function in it does when it is called
does not count. -/
def Expr.assigns (name : Name) : Expr → Bool
  | .constant .. | .symbol .. | .empty _ | .function _ => false
  | .call _ f args => f.assigns name || Arg.anyAssigns name args
  | .block _ body => Expr.anyAssigns name body
  | .branch _ test yes no => test.assigns name || yes.assigns name || Expr.optionAssigns name no
  | .assign _ target value _ =>
    value.assigns name || decide (target.symbol? = some name) || target.assigns name

def Expr.anyAssigns (name : Name) : List Expr → Bool
  | [] => false
  | e :: rest => e.assigns name || Expr.anyAssigns name rest

def Expr.optionAssigns (name : Name) : Option Expr → Bool
  | none => false
  | some e => e.assigns name

def Arg.anyAssigns (name : Name) : List Arg → Bool
  | [] => false
  | ⟨_, e⟩ :: rest => e.assigns name || Arg.anyAssigns name rest

end

/-- Code that is evaluated in order. -/
inductive Code where
  | expr (e : Expr)
  | body (es : List Expr)
  | arguments (args : List Arg)

/-- Code at a depth, with the session its evaluation starts from. -/
structure Point where
  depth : Nat
  code : Code
  session : Session

/-- A function expression gives the builtin that a registry has under a name. -/
def CallsBuiltin (r : Registry) (depth : Nat) (f : Expr) (name : Name) (env : EnvId)
    (caller : RecordId) (s t : Session) (b : Builtin) : Prop :=
  r.lookup? name = some b ∧ ∃ called id, t.builtins.functions[id]? = some b ∧
    (do checkInterrupt; calledFunction (eval depth) f env caller : EvalM Value) s =
      (.ok (.builtin called id), t)

section Visiting

variable (r : Registry) (env : EnvId) (caller : RecordId) (passes : Expr → Prop)

/-- From code to the parts of it that run whenever it comes to a value. The condition is on the code that
has run before, within the one that is left. -/
inductive Next : Point → Point → Prop
  | block (d : Nat) (id : NodeId) (es : List Expr) (s : Session) :
    Next ⟨d + 1, .expr (.block id es), s⟩ ⟨d, .body es, s⟩
  | statement (d : Nat) (e : Expr) (rest : List Expr) (s : Session) :
    Next ⟨d, .body (e :: rest), s⟩ ⟨d, .expr e, s⟩
  | following {d : Nat} {e : Expr} {rest : List Expr} {s t : Session} {v : Value} :
    eval d e env caller s = (.ok v, t) → passes e →
    Next ⟨d, .body (e :: rest), s⟩ ⟨d, .body rest, t⟩
  | test (d : Nat) (id : NodeId) (test yes : Expr) (no : Option Expr) (s : Session) :
    Next ⟨d + 1, .expr (.branch id test yes no), s⟩ ⟨d, .expr test, s⟩
  | value (d : Nat) (id : NodeId) (target value : Expr) (outer : Bool) (s : Session) :
    Next ⟨d + 1, .expr (.assign id target value outer), s⟩ ⟨d, .expr value, s⟩
  | call {d : Nat} {id : NodeId} {f : Expr} {name : Name} {args : List Arg} {s t : Session}
    {b : Builtin} : f.symbol? = some name → b.isStrict = true → b.isPure = true →
    CallsBuiltin r d f name env caller s t b →
    Next ⟨d + 1, .expr (.call id f args), s⟩ ⟨d, .arguments args, t⟩
  | argument {d : Nat} {name : Option Name} {e : Expr} {rest : List Arg} {s : Session} :
    e.isVarargs = false → e.isEmpty = false →
    Next ⟨d, .arguments (⟨name, e⟩ :: rest), s⟩ ⟨d, .expr e, s⟩
  | further {d : Nat} {a : Arg} {rest : List Arg} {s t : Session}
    {given : List (Option Name) × List Value} :
    evaluateArgs (eval d) env caller [a] s = (.ok given, t) → passes a.value →
    Next ⟨d, .arguments (a :: rest), s⟩ ⟨d, .arguments rest, t⟩

abbrev Visits : Point → Point → Prop := ReflTransGen (Next r env caller passes)

end Visiting

section Ending

variable {r : Registry} {env : EnvId} {caller : RecordId} {passes : Expr → Prop}

/-- Code that comes to a value, and the session then. -/
def Ends (env : EnvId) (caller : RecordId) (c : Point) (t : Session) : Prop :=
  match c.code with
  | .expr e => ∃ v, eval c.depth e env caller c.session = (.ok v, t)
  | .body es => ∃ last v, evalBlock (eval c.depth) env caller last es c.session = (.ok v, t)
  | .arguments args => ∃ given, evaluateArgs (eval c.depth) env caller args c.session = (.ok given, t)

theorem Next.mono {more : Expr → Prop} (wider : ∀ e, passes e → more e) {c c' : Point}
    (next : Next r env caller passes c c') : Next r env caller more c c' := by
  cases next with
  | block => exact .block _ _ _ _
  | statement => exact .statement _ _ _ _
  | following run passed => exact .following run (wider _ passed)
  | test => exact .test _ _ _ _ _ _
  | value => exact .value _ _ _ _ _ _
  | call symbol strict pure called => exact .call symbol strict pure called
  | argument varargs empty => exact .argument varargs empty
  | further run passed => exact .further run (wider _ passed)

theorem keeps_disciplined {α : Type} {m : EvalM α} (holds : (Lawful.law Disciplined).Holds m)
    {s t : Session} {r : Except Unwind α} (run : m s = (r, t)) : Disciplined s.ledger t.ledger := by
  have kept : Disciplined s.ledger (m s).2.ledger := holds s
  rw [run] at kept
  exact kept

/-- Arguments are evaluated one after the other. -/
theorem evaluateArgs_cons (ev : Evaluator) (a : Arg) (rest : List Arg) :
    evaluateArgs ev env caller (a :: rest) = (do
      let given ← evaluateArgs ev env caller [a]
      let more ← evaluateArgs ev env caller rest
      pure (given.1 ++ more.1, given.2 ++ more.2)) := by
  obtain ⟨name, e⟩ := a
  rw [evaluateArgs, evaluateArgs, evaluateArgs]
  dsimp only
  split
  · simp only [bind_assoc, pure_bind, List.append_nil]
  · split
    · simp only [pure_bind, List.append_nil]
    · simp only [bind_assoc, pure_bind, List.append_nil]

theorem evaluates_disciplined (d : Nat) : (Lawful.law Disciplined).Evaluates (eval d) :=
  (Lawful.law Disciplined).evaluates_eval d

/-- Where a call of a pure strict builtin comes to a value, its arguments have. -/
theorem callBuiltin_ends {d : Nat} {b : Builtin} {call : Expr} {args : List Arg} {s t : Session}
    {v : Value} (strict : b.isStrict = true) (pure : b.isPure = true)
    (run : callBuiltin (eval d) b call args env caller s = (.ok v, t)) :
    ∃ given u, evaluateArgs (eval d) env caller args s = (.ok given, u) ∧
      Disciplined u.ledger t.ledger := by
  unfold callBuiltin at run
  rw [pure] at run
  unfold Builtin.isStrict at strict
  cases operation : b.operation with
  | special op =>
    rw [operation] at strict
    cases strict
  | strict op =>
    rw [operation] at run
    obtain ⟨given, u, evaluated, invoked⟩ := parts_of_bind run
    exact ⟨given, u, evaluated, keeps_disciplined
      ((Lawful.law Disciplined).holds_invokeStrict (evaluates_disciplined d) _ _ _ _ _ _ _) invoked⟩

/-- Code visited next comes to a value where the code it is part of does, and promises are kept in
between. -/
theorem Next.ends {c c' : Point} (next : Next r env caller passes c c') {t : Session}
    (ends : Ends env caller c t) : ∃ t', Ends env caller c' t' ∧ Disciplined t'.ledger t.ledger := by
  let L := Lawful.law Disciplined
  cases next with
  | block d id es s =>
    obtain ⟨v, run⟩ := ends
    exact ⟨t, ⟨.null, v, run⟩, Disciplined.refl _⟩
  | statement d e rest s =>
    obtain ⟨last, v, run⟩ := ends
    obtain ⟨w, u, first, onward⟩ := parts_of_bind run
    exact ⟨u, ⟨w, first⟩, keeps_disciplined (L.holds_evalBlock (evaluates_disciplined d) _ _ _ _) onward⟩
  | @following d e rest s u w first passed =>
    obtain ⟨last, v, run⟩ := ends
    obtain ⟨w', u', first', onward⟩ := parts_of_bind run
    cases first.symm.trans first'
    exact ⟨t, ⟨w, v, onward⟩, Disciplined.refl _⟩
  | test d id test yes no s =>
    obtain ⟨v, run⟩ := ends
    obtain ⟨w, u, first, onward⟩ := parts_of_bind (m := eval d test env caller) run
    refine ⟨u, ⟨w, first⟩, keeps_disciplined (L.reading (fun _ _ _ _ => rfl) fun s => ?_) onward⟩
    split
    · exact L.holds_failAt _ _
    · exact evaluates_disciplined d _ _ _
    · split
      · exact evaluates_disciplined d _ _ _
      · exact L.value _
  | value d id target value outer s =>
    obtain ⟨v, run⟩ := ends
    obtain ⟨w, u, first, onward⟩ := parts_of_bind (m := eval d value env caller) run
    exact ⟨u, ⟨w, first⟩, keeps_disciplined (L.andThen
      (L.holds_assign (evaluates_disciplined d) _ _ _ _ _) fun _ => L.value _) onward⟩
  | @call d id f name args s u b symbol strict pure called =>
    obtain ⟨v, run⟩ := ends
    obtain ⟨_, called, number, found, head⟩ := called
    have first : (do
        checkInterrupt
        calledFunction (eval d) f env caller : EvalM Value) s = (.ok (.builtin called number), u) := head
    change evalCall (eval d) (.call id f args) f args env caller s = _ at run
    unfold evalCall at run
    rw [← bind_assoc, bind_apply, first] at run
    dsimp only at run
    rw [bind_apply, findBuiltin_apply found] at run
    obtain ⟨given, u', evaluated, kept⟩ := callBuiltin_ends strict pure run
    exact ⟨u', ⟨given, evaluated⟩, kept⟩
  | @argument d name e rest s varargs empty =>
    obtain ⟨given, run⟩ := ends
    change evaluateArgs (eval d) env caller (⟨name, e⟩ :: rest) s = _ at run
    rw [evaluateArgs] at run
    dsimp only at run
    rw [if_neg (by simp [varargs]), if_neg (by simp [empty])] at run
    obtain ⟨w, u, first, onward⟩ := parts_of_bind run
    exact ⟨u, ⟨w, first⟩, keeps_disciplined (L.andThen (L.value _) fun _ => L.andThen
      (L.holds_evaluateArgs (evaluates_disciplined d) _ _ _) fun _ => L.value _) onward⟩
  | @further d a rest s u given first passed =>
    obtain ⟨all, run⟩ := ends
    change evaluateArgs (eval d) env caller (a :: rest) s = _ at run
    rw [evaluateArgs_cons, bind_apply, first] at run
    obtain ⟨more, u', onward, rest⟩ := parts_of_bind run
    cases rest
    exact ⟨t, ⟨more, onward⟩, Disciplined.refl _⟩

theorem Next.keeps {c c' : Point} (next : Next r env caller passes c c') :
    Disciplined c.session.ledger c'.session.ledger := by
  let L := Lawful.law Disciplined
  cases next with
  | following run => exact keeps_disciplined (evaluates_disciplined _ _ _ _) run
  | call symbol strict pure called =>
    obtain ⟨_, _, _, _, head⟩ := called
    exact keeps_disciplined (L.andThen L.polling fun _ =>
      L.holds_calledFunction (evaluates_disciplined _) _ _ _) head
  | further run => exact keeps_disciplined (L.holds_evaluateArgs (evaluates_disciplined _) _ _ _) run
  | _ => exact Disciplined.refl _

theorem Visits.ends {c c' : Point} (visits : Visits r env caller passes c c') {t : Session}
    (ends : Ends env caller c t) : ∃ t', Ends env caller c' t' ∧ Disciplined t'.ledger t.ledger := by
  induction visits with
  | refl => exact ⟨t, ends, Disciplined.refl _⟩
  | tail _ next ih =>
    obtain ⟨u, before, kept⟩ := ih
    obtain ⟨t', after, kept'⟩ := next.ends before
    exact ⟨t', after, kept'.trans kept⟩

theorem Visits.keeps {c c' : Point} (visits : Visits r env caller passes c c') :
    Disciplined c.session.ledger c'.session.ledger := by
  induction visits with
  | refl => exact Disciplined.refl _
  | tail _ next ih => exact ih.trans next.keeps

/-! Reading a variable. -/

/-- The first place where a name is looked for is the frame itself. -/
theorem lookup_local {h : Heap} {name : Name} {v : Value} (bound : h.getLocal env name = .ok (some v)) :
    h.lookup env name = .ok (some (env, v)) := by
  unfold Heap.lookup Heap.chain
  rw [Heap.chainUpTo, Heap.lookupAlong, bound]
  rfl

/-- A promise that is there is evaluated once it is fulfilled. -/
theorem fulfilled_evaluated {s : Store} {p : PromiseId} (there : p.index < s.promises.size) (v : Value) :
    (((s.share v).fulfil p v).promise p).state = .evaluated v := by
  have inside : p.index < (s.share v).promises.size := by
    unfold Store.share
    rw [Disciplined.setSharing_promises]
    exact there
  unfold Store.fulfil
  rw [Disciplined.state_set _ _ _ _ inside, if_pos rfl]

/-- An evaluation of a promise that gives a value leaves it evaluated. -/
theorem evaluatePromise_evaluates {d : Nat} {p : PromiseId} {home : EnvId} {s t : Session} {v : Value}
    (run : evaluatePromise (eval d) p home caller s = (.ok v, t)) :
    (t.store.promise p).state = .evaluated v := by
  unfold evaluatePromise at run
  obtain ⟨_, begun, start, run⟩ := parts_of_bind run
  have there : p.index < begun.store.promises.size := by
    rw [onStore_apply, Disciplined.beginEvaluation_apply] at start
    cases state : (s.store.promise p).state with
    | unevaluated env =>
      rw [state] at start
      cases start
      dsimp only
      rw [Disciplined.size_set]
      exact Store.waiting_inside (by rw [state]; rfl)
    | underEvaluation env =>
      rw [state] at start
      cases start
    | evaluated w =>
      rw [state] at start
      cases start
  rw [get_bind, observe_bind] at run
  have holds : (Lawful.law Disciplined).Holds (underRecord (some caller) none
      (.promise (begun.store.promise p).caller) (eval d (begun.store.promise p).expr home)) :=
    (Lawful.law Disciplined).holds_underRecord rfl fun _ => evaluates_disciplined d _ _ _
  have kept : Disciplined begun.ledger _ := holds begun
  generalize underRecord (some caller) none (.promise (begun.store.promise p).caller)
    (eval d (begun.store.promise p).expr home) begun = ended at run kept
  rcases ended with ⟨u | w, after⟩
  · cases run
  · cases run
    exact fulfilled_evaluated (Nat.lt_of_lt_of_le there kept.grown) _

/-- A promise whose forcing gives a value has it from then on, unless it was under evaluation. -/
theorem force_evaluates {d : Nat} {p : PromiseId} {s t : Session} {v : Value}
    (run : force (eval d) p caller s = (.ok v, t)) :
    (∃ home, (s.store.promise p).state = .underEvaluation home) ∨
      ∃ w, (t.store.promise p).state = .evaluated w := by
  unfold force at run
  rw [get_bind] at run
  cases state : (s.store.promise p).state with
  | underEvaluation home => exact .inl ⟨home, rfl⟩
  | evaluated w =>
    rw [state] at run
    cases run
    exact .inr ⟨_, state⟩
  | unevaluated home =>
    rw [state] at run
    obtain ⟨found, u, taken, run⟩ := parts_of_bind run
    cases found with
    | none =>
      obtain ⟨_, _, _, run⟩ := parts_of_bind run
      obtain ⟨_, _, _, run⟩ := parts_of_bind run
      exact .inr ⟨v, evaluatePromise_evaluates run⟩
    | some w =>
      have there : p.index < s.store.promises.size := Store.waiting_inside (by rw [state]; rfl)
      cases run
      rcases takeEagerValue_cases p s with ⟨_, none⟩ | ⟨eager, _, _, ⟨_, used⟩ | given⟩
      · cases none.symm.trans taken
      · cases used.symm.trans taken
        exact .inr ⟨_, fulfilled_evaluated there _⟩
      · cases given.symm.trans taken

/-- To read a name that its frame binds to a promise is to force the promise. -/
theorem read_evaluates {d : Nat} {id : NodeId} {name : Name} {p : PromiseId} {s t : Session} {v : Value}
    (plain : Name.isDotIndex name = false)
    (bound : s.heap.getLocal env name = .ok (some (.promise p)))
    (run : eval d (.symbol id name) env caller s = (.ok v, t)) :
    (∃ home, (s.store.promise p).state = .underEvaluation home) ∨
      ∃ w, (t.store.promise p).state = .evaluated w := by
  cases d with
  | zero => cases run
  | succ d =>
    change readVariable (eval d) name env caller s = _ at run
    unfold readVariable at run
    split at run
    · cases run
    · rw [plain, if_neg Bool.false_ne_true, bind_apply, readHeap_apply, lookup_local bound] at run
      exact force_evaluates run

end Ending

/-! What the analysis marks. -/

/-- Every formal that is still bound as on entry has a name of its own. -/
def Forcing.Distinct (w : Forcing) : Prop :=
  ∀ (i j : Nat) (name : Name), w.formals[i]? = some name → w.formals[j]? = some name → name = "" ∨ i = j

section Learning

variable (r : Registry) (env : EnvId) (caller : RecordId)

/-- A variable is read at code visited from a point. -/
def ReadsWithin (passes : Expr → Prop) (c : Point) (name : Name) : Prop :=
  ∃ d id s, Visits r env caller passes c ⟨d, .expr (.symbol id name), s⟩

/-- A variable is read before the code itself assigns to it. -/
def ReadsFirst (c : Point) (name : Name) : Prop := ReadsWithin r env caller (·.assigns name = false) c name

/-- A variable without a name is read. -/
def ReadsBlank (c : Point) : Prop := ReadsWithin r env caller (fun _ => True) c ""

/-- Wherever a name of a pure strict builtin is called at code visited from a point, it is that builtin. -/
def Resolved (c : Point) : Prop :=
  ∀ d id f args s name, Visits r env caller (fun _ => True) c ⟨d + 1, .expr (.call id f args), s⟩ →
    f.symbol? = some name → r.isStrict name = true → r.isPure name = true →
      ∃ t b, CallsBuiltin r d f name env caller s t b

/-- What the analysis of some code came to, from the state it was in before: a formal newly marked is
read first, or a blank variable is; a name still there was there before, and the code does not assign to
it if the analysis goes on. -/
structure Learns (c : Point) (assigns : Name → Bool) (w : Forcing) (result : Bool × Forcing) : Prop where
  marks : ∀ i : Nat, result.2.forced[i]? = some true → w.forced[i]? = some true ∨
    (∃ name, w.formals[i]? = some name ∧ ReadsFirst r env caller c name) ∨ ReadsBlank r env caller c
  formals : ∀ (i : Nat) (name : Name), result.2.formals[i]? = some name →
    name = "" ∨ (w.formals[i]? = some name ∧ (result.1 = true → assigns name = false))

variable {r env caller}

theorem ReadsWithin.before {passes : Expr → Prop} {c c' : Point} {name : Name}
    (next : Next r env caller passes c c') (reads : ReadsWithin r env caller passes c' name) :
    ReadsWithin r env caller passes c name := by
  obtain ⟨d, id, s, visits⟩ := reads
  exact ⟨d, id, s, .head next visits⟩

theorem Resolved.next {passes : Expr → Prop} {c c' : Point} (resolved : Resolved r env caller c)
    (next : Next r env caller passes c c') : Resolved r env caller c' :=
  fun d id f args s name visits =>
    resolved d id f args s name (.head (next.mono fun _ _ => trivial) visits)

theorem Learns.distinct {c : Point} {assigns : Name → Bool} {w : Forcing} {result : Bool × Forcing}
    (learns : Learns r env caller c assigns w result) (distinct : w.Distinct) : result.2.Distinct := by
  intro i j name first second
  rcases learns.formals i name first with blank | ⟨before, _⟩
  · exact .inl blank
  · rcases learns.formals j name second with blank | ⟨before', _⟩
    · exact .inl blank
    · exact distinct i j name before before'

/-- Nothing is learnt. -/
theorem learns_same {c : Point} {assigns : Name → Bool} (w : Forcing) {go : Bool}
    (none : go = true → ∀ name, assigns name = false) : Learns r env caller c assigns w (go, w) :=
  ⟨fun _ marked => .inl marked, fun _ name there => .inr ⟨there, fun on => none on name⟩⟩

/-- What is learnt of code that is visited whatever ran before. -/
theorem Learns.of_next {c c' : Point} {assigns more : Name → Bool} {w : Forcing} {go : Bool}
    {result : Bool × Forcing} (next : ∀ passes, Next r env caller passes c c')
    (learns : Learns r env caller c' assigns w result)
    (wider : go = true → result.1 = true ∧ ∀ name, assigns name = false → more name = false) :
    Learns r env caller c more w (go, result.2) where
  marks i marked := by
    rcases learns.marks i marked with before | ⟨name, there, reads⟩ | blank
    · exact .inl before
    · exact .inr (.inl ⟨name, there, reads.before (next _)⟩)
    · exact .inr (.inr (blank.before (next _)))
  formals i name there := (learns.formals i name there).imp_right fun ⟨before, unassigned⟩ =>
    ⟨before, fun on => (wider on).2 name (unassigned (wider on).1)⟩

/-- The same where the analysis goes on with the code around as it does within. -/
theorem Learns.inside {c c' : Point} {assigns : Name → Bool} {w : Forcing} {result : Bool × Forcing}
    (next : ∀ passes, Next r env caller passes c c') (learns : Learns r env caller c' assigns w result) :
    Learns r env caller c assigns w result :=
  learns.of_next next fun on => ⟨on, fun _ unassigned => unassigned⟩

/-- The same where the analysis goes no further. -/
theorem Learns.stopped {c c' : Point} {assigns more : Name → Bool} {w : Forcing}
    {result : Bool × Forcing} (next : ∀ passes, Next r env caller passes c c')
    (learns : Learns r env caller c' assigns w result) : Learns r env caller c more w (false, result.2) :=
  learns.of_next next (absurd · Bool.false_ne_true)

/-- What is learnt of two pieces of code that run one after the other. -/
theorem Learns.seq {c c' : Point} {e : Expr} {later both : Name → Bool} {w w₁ : Forcing}
    {result : Bool × Forcing} (past : ∀ passes : Expr → Prop, passes e → Next r env caller passes c c')
    (first : Learns r env caller c e.assigns w (true, w₁))
    (second : Learns r env caller c' later w₁ result)
    (either : ∀ name, both name = (e.assigns name || later name)) :
    Learns r env caller c both w result where
  marks i marked := by
    rcases second.marks i marked with between | ⟨name, there, reads⟩ | blank
    · exact first.marks i between
    · rcases first.formals i name there with rfl | ⟨before, unassigned⟩
      · obtain ⟨d, id, s, visits⟩ := reads
        have visits' : Visits r env caller (fun _ => True) _ _ :=
          ReflTransGen.mono (fun _ _ next => Next.mono (fun _ _ => trivial) next) _ _ visits
        exact .inr (.inr ⟨d, id, s, .head (past _ trivial) visits'⟩)
      · exact .inr (.inl ⟨name, before, reads.before (past _ (unassigned rfl))⟩)
    · exact .inr (.inr (blank.before (past _ trivial)))
  formals i name there := by
    rcases second.formals i name there with blank | ⟨between, unassigned⟩
    · exact .inl blank
    · refine (first.formals i name between).imp_right fun ⟨before, unassigned'⟩ => ⟨before, fun on => ?_⟩
      rw [either, unassigned' rfl, unassigned on]
      rfl

/-- A variable that is read marks its formal. -/
theorem learns_read (w : Forcing) (d : Nat) (id : NodeId) (name : Name) (s : Session)
    {assigns : Name → Bool} (none : ∀ name, assigns name = false) :
    Learns r env caller ⟨d, .expr (.symbol id name), s⟩ assigns w (true, w.read name) := by
  unfold Forcing.read
  split
  · exact learns_same w fun _ => none
  · split
    · rename_i i place
      obtain ⟨inside, same, _⟩ := List.findIdx?_eq_some_iff_getElem.mp place
      refine ⟨fun j marked => ?_, fun _ other there => .inr ⟨there, fun _ => none other⟩⟩
      dsimp only at marked
      rw [List.getElem?_set] at marked
      split at marked
      · rename_i here
        subst here
        refine .inr (.inl ⟨name, ?_, d, id, s, .refl⟩)
        rw [List.getElem?_eq_getElem inside, of_decide_eq_true same]
      · exact .inl marked
    · exact learns_same w fun _ => none

/-- A formal that is assigned to is there no more. -/
theorem rebind_formals {w : Forcing} (distinct : w.Distinct) {name other : Name} {i : Nat}
    (there : (w.rebind name).formals[i]? = some other) :
    other = "" ∨ (w.formals[i]? = some other ∧ other ≠ name) := by
  unfold Forcing.rebind at there
  split at there
  · rename_i j place
    obtain ⟨inside, same, _⟩ := List.findIdx?_eq_some_iff_getElem.mp place
    have found : w.formals[j]? = some name := by
      rw [List.getElem?_eq_getElem inside, of_decide_eq_true same]
    dsimp only at there
    rw [List.getElem?_set] at there
    split at there
    · left
      simpa [inside, eq_comm] using there
    · rename_i apart
      by_cases equal : other = name
      · subst equal
        exact .inl ((distinct i j other there found).resolve_right (Ne.symm apart))
      · exact .inr ⟨there, equal⟩
  · rename_i absent
    refine .inr ⟨there, ?_⟩
    rintro rfl
    have found := List.findIdx?_eq_none_iff.mp absent other (List.mem_of_getElem? there)
    simp at found

theorem rebind_forced (w : Forcing) (name : Name) : (w.rebind name).forced = w.forced := by
  unfold Forcing.rebind
  split <;> rfl

/-- What is learnt of an assignment, from what is learnt of the value assigned. -/
theorem learns_assign {d : Nat} {id : NodeId} {target value : Expr} {outer : Bool} {s : Session}
    {w : Forcing} (distinct : w.Distinct)
    (learns : Learns r env caller ⟨d, .expr value, s⟩ (value.assigns ·) w (value.forces r w)) :
    Learns r env caller ⟨d + 1, .expr (.assign id target value outer), s⟩
      ((Expr.assign id target value outer).assigns ·) w
      ((Expr.assign id target value outer).forces r w) := by
  have next (passes : Expr → Prop) : Next r env caller passes _ ⟨d, .expr value, s⟩ :=
    .value d id target value outer s
  rw [Expr.forces]
  rcases after : value.forces r w with ⟨_ | _, w₁⟩
  · rw [after] at learns
    exact learns.stopped next
  · rw [after] at learns
    cases symbol : target.symbol? with
    | none => exact learns.stopped next
    | some name =>
      have plain (other : Name) : target.assigns other = false := by
        cases target with
        | symbol => rfl
        | _ => cases symbol
      refine ⟨fun i marked => ?_, fun i other there => ?_⟩
      · have before : w₁.forced[i]? = some true := rebind_forced w₁ name ▸ marked
        have moved : Learns r env caller _ value.assigns w (false, w₁) := learns.stopped next
        exact moved.marks i before
      · rcases rebind_formals (learns.distinct distinct) there with blank | ⟨between, apart⟩
        · exact .inl blank
        · refine (learns.formals i other between).imp_right fun ⟨before, unassigned⟩ =>
            ⟨before, fun _ => ?_⟩
          rw [Expr.assigns, unassigned rfl, symbol, plain]
          simpa using Ne.symm apart

mutual

theorem learns_expr (e : Expr) {w : Forcing} (distinct : w.Distinct) {d : Nat} {s t : Session}
    (ends : Ends env caller ⟨d, .expr e, s⟩ t) (resolved : Resolved r env caller ⟨d, .expr e, s⟩) :
    Learns r env caller ⟨d, .expr e, s⟩ (e.assigns ·) w (e.forces r w) := by
  cases d with
  | zero =>
    obtain ⟨_, run⟩ := ends
    cases run
  | succ d =>
    cases e with
    | constant id v => exact learns_same w fun _ _ => rfl
    | symbol id name => exact learns_read w _ id name s fun _ => rfl
    | empty id => exact learns_same w fun _ _ => rfl
    | function f => exact learns_same w fun _ _ => rfl
    | block id body =>
      have next (passes : Expr → Prop) : Next r env caller passes _ ⟨d, .body body, s⟩ :=
        .block d id body s
      obtain ⟨_, within, _⟩ := (next fun _ => True).ends ends
      rw [Expr.forces]
      exact (learns_body body distinct within (resolved.next (next fun _ => True))).inside next
    | branch id test yes no =>
      have next (passes : Expr → Prop) : Next r env caller passes _ ⟨d, .expr test, s⟩ :=
        .test d id test yes no s
      obtain ⟨_, within, _⟩ := (next fun _ => True).ends ends
      rw [Expr.forces]
      exact (learns_expr test distinct within (resolved.next (next fun _ => True))).stopped next
    | assign id target value outer =>
      have next : Next r env caller (fun _ => True) _ ⟨d, .expr value, s⟩ :=
        .value d id target value outer s
      obtain ⟨_, within, _⟩ := next.ends ends
      exact learns_assign distinct (learns_expr value distinct within (resolved.next next))
    | call id f args =>
      rw [Expr.forces]
      split
      · rename_i known
        obtain ⟨name, symbol, kind⟩ := (Option.any_eq_true _ _).mp known
        obtain ⟨strict, pure⟩ := Bool.and_eq_true_iff.mp kind
        obtain ⟨u, b, called⟩ := resolved d id f args s name .refl symbol strict pure
        have next (passes : Expr → Prop) : Next r env caller passes ⟨d + 1, .expr (.call id f args), s⟩
            ⟨d, .arguments args, u⟩ := by
          refine .call symbol ?_ ?_ called
          · simpa [Registry.isStrict, called.1] using strict
          · simpa [Registry.isPure, called.1] using pure
        obtain ⟨_, within, _⟩ := (next fun _ => True).ends ends
        refine (learns_arguments args distinct within (resolved.next (next fun _ => True))).of_next next
          fun on => ⟨on, fun other unassigned => ?_⟩
        have plain : f.assigns other = false := by
          cases f with
          | symbol => rfl
          | _ => cases symbol
        rw [Expr.assigns, plain, unassigned]
        rfl
      · exact learns_same w (absurd · Bool.false_ne_true)

theorem learns_body (es : List Expr) {w : Forcing} (distinct : w.Distinct) {d : Nat} {s t : Session}
    (ends : Ends env caller ⟨d, .body es, s⟩ t) (resolved : Resolved r env caller ⟨d, .body es, s⟩) :
    Learns r env caller ⟨d, .body es, s⟩ (Expr.anyAssigns · es) w (Expr.allForce r es w) := by
  cases es with
  | nil => exact learns_same w fun _ _ => rfl
  | cons e rest =>
    have into (passes : Expr → Prop) : Next r env caller passes _ ⟨d, .expr e, s⟩ :=
      .statement d e rest s
    obtain ⟨u, within, _⟩ := (into fun _ => True).ends ends
    have first := learns_expr e distinct within (resolved.next (into fun _ => True))
    rw [Expr.allForce]
    rcases after : e.forces r w with ⟨_ | _, w₁⟩
    · rw [after] at first
      exact first.stopped into
    · rw [after] at first
      obtain ⟨v, run⟩ := within
      have past (passes : Expr → Prop) (passed : passes e) :
          Next r env caller passes ⟨d, .body (e :: rest), s⟩ ⟨d, .body rest, u⟩ := .following run passed
      obtain ⟨_, onward, _⟩ := (past (fun _ => True) trivial).ends ends
      exact .seq past (first.inside into)
        (learns_body rest (first.distinct distinct) onward
          (resolved.next (past (fun _ => True) trivial))) fun _ => rfl

theorem learns_arguments (args : List Arg) {w : Forcing} (distinct : w.Distinct) {d : Nat}
    {s t : Session} (ends : Ends env caller ⟨d, .arguments args, s⟩ t)
    (resolved : Resolved r env caller ⟨d, .arguments args, s⟩) :
    Learns r env caller ⟨d, .arguments args, s⟩ (Arg.anyAssigns · args) w (Arg.allForce r args w) := by
  match args with
  | [] => exact learns_same w fun _ _ => rfl
  | ⟨label, e⟩ :: rest =>
    have past : ∃ u, ∀ passes : Expr → Prop, passes e → Next r env caller passes
        ⟨d, .arguments (⟨label, e⟩ :: rest), s⟩ ⟨d, .arguments rest, u⟩ := by
      obtain ⟨given, run⟩ := ends
      change evaluateArgs (eval d) env caller (⟨label, e⟩ :: rest) s = _ at run
      rw [evaluateArgs_cons] at run
      obtain ⟨_, u, first, _⟩ := parts_of_bind run
      exact ⟨u, fun passes passed => .further first passed⟩
    obtain ⟨u, past⟩ := past
    obtain ⟨_, onward, _⟩ := (past (fun _ => True) trivial).ends ends
    -- an entry of `...` and an empty argument are passed over, by the evaluation and by the analysis
    have first : Learns r env caller ⟨d, .arguments (⟨label, e⟩ :: rest), s⟩ (e.assigns ·) w
        (e.forces r w) := by
      cases varargs : e.isVarargs with
      | true =>
        cases e with
        | symbol id name =>
          have skipped : w.read name = w := by
            unfold Forcing.read
            exact if_pos varargs
          rw [Expr.forces, skipped]
          exact learns_same w fun _ _ => rfl
        | _ => cases varargs
      | false =>
        cases empty : e.isEmpty with
        | true =>
          cases e with
          | empty id => exact learns_same w fun _ _ => rfl
          | _ => cases empty
        | false =>
          have into (passes : Expr → Prop) : Next r env caller passes
              ⟨d, .arguments (⟨label, e⟩ :: rest), s⟩ ⟨d, .expr e, s⟩ := .argument varargs empty
          obtain ⟨_, within, _⟩ := (into fun _ => True).ends ends
          exact (learns_expr e distinct within (resolved.next (into fun _ => True))).inside into
    rw [Arg.allForce]
    rcases after : e.forces r w with ⟨_ | _, w₁⟩
    · rw [after] at first
      exact ⟨first.marks, fun i name there => (first.formals i name there).imp_right fun before =>
        ⟨before.1, (absurd · Bool.false_ne_true)⟩⟩
    · rw [after] at first
      exact .seq past first (learns_arguments rest (first.distinct distinct) onward
        (resolved.next (past (fun _ => True) trivial))) fun _ => rfl

end

/-- A body that comes to a value, and a promise that a formal marked by the analysis may be bound to. The
promise has its value then, or it was under evaluation from the start. Otherwise the analysis was misled:
the formal has the name of an entry of `...`; or a variable without a name is read, which stands for any
formal assigned to; or the body reads the formal before it assigns to it itself, and wherever it reads it,
the frame no longer binds it to the promise. -/
theorem marked_formal_forced {f : Function} (distinct : f.names.Nodup) {depth : Nat} {s t : Session}
    {v : Value} (run : eval depth f.body env caller s = (.ok v, t))
    (resolved : Resolved r env caller ⟨depth, .expr f.body, s⟩) {i : Nat} {name : Name}
    (named : f.names[i]? = some name) (marked : (f.alwaysForced r)[i]? = some true) {p : PromiseId}
    (there : p.index < s.store.promises.size) :
    (∃ w, (t.store.promise p).state = .evaluated w) ∨
    (∃ home, (s.store.promise p).state = .underEvaluation home ∧
      (t.store.promise p).state = .underEvaluation home) ∨
    Name.isDotIndex name = true ∨ ReadsBlank r env caller ⟨depth, .expr f.body, s⟩ ∨
    (ReadsFirst r env caller ⟨depth, .expr f.body, s⟩ name ∧ ∀ passes d id u,
      Visits r env caller passes ⟨depth, .expr f.body, s⟩ ⟨d, .expr (.symbol id name), u⟩ →
        u.heap.getLocal env name ≠ .ok (some (.promise p))) := by
  have apart : Forcing.Distinct ⟨f.names, f.formals.map fun _ => false⟩ := by
    intro i j name first second
    obtain ⟨inside, _⟩ := List.getElem?_eq_some_iff.mp first
    exact .inr ((List.getElem?_inj inside distinct).mp (first.trans second.symm))
  have learns := learns_expr f.body apart ⟨v, run⟩ resolved
  have kept : Disciplined s.ledger t.ledger := keeps_disciplined (evaluates_disciplined _ _ _ _) run
  by_cases evaluated : ∃ w, (t.store.promise p).state = .evaluated w
  · exact .inl evaluated
  by_cases under : ∃ home, (s.store.promise p).state = .underEvaluation home
  · obtain ⟨home, state⟩ := under
    exact .inr (.inl ⟨home, state, (kept.running p home).mpr state⟩)
  cases plain : Name.isDotIndex name with
  | true => exact .inr (.inr (.inl rfl))
  | false =>
    rcases learns.marks i marked with before | ⟨other, same, reads⟩ | blank
    · obtain ⟨_, _, unmarked⟩ := List.mem_map.mp (List.mem_of_getElem? before)
      cases unmarked
    · cases named.symm.trans same
      refine .inr (.inr (.inr (.inr ⟨reads, fun passes d id u visits still => ?_⟩)))
      -- had the frame still bound the formal to the promise, reading it would have forced the promise
      obtain ⟨t', ⟨w, read⟩, onward⟩ := visits.ends ⟨v, run⟩
      rcases read_evaluates plain still read with ⟨home, running⟩ | ⟨w, done⟩
      · exact under ⟨home, (visits.keeps.running p home).mp running⟩
      · have before := (keeps_disciplined (evaluates_disciplined d _ _ _) read).grown
        have inside := Nat.lt_of_lt_of_le there (Nat.le_trans visits.keeps.grown before)
        exact evaluated ⟨w, onward.evaluated p w inside done⟩
    · exact .inr (.inr (.inr (.inl blank)))

end Learning

/-! What code does not mention is not visited. -/

def Code.mentions : Code → List Mention
  | .expr e => e.mentions
  | .body es => Expr.allMentions es
  | .arguments args => Arg.allMentions args

section Mentioning

variable {r : Registry} {env : EnvId} {caller : RecordId} {passes : Expr → Prop} {c c' : Point}

theorem Next.mentions (next : Next r env caller passes c c') : c'.code.mentions ⊆ c.code.mentions := by
  cases next with
  | @further _ a =>
    obtain ⟨_, e⟩ := a
    exact List.subset_append_right _ _
  | _ => simp [Code.mentions, Expr.mentions, Expr.allMentions, Arg.allMentions]

theorem Visits.mentions (visits : Visits r env caller passes c c') :
    c'.code.mentions ⊆ c.code.mentions := by
  induction visits with
  | refl => exact fun _ member => member
  | tail _ next ih => exact fun _ member => ih (next.mentions member)

theorem ReadsWithin.mentioned {name : Name} (reads : ReadsWithin r env caller passes c name) :
    .symbol name ∈ c.code.mentions := by
  obtain ⟨_, _, _, visits⟩ := reads
  exact visits.mentions (List.mem_singleton.mpr rfl)

/-- Nothing is to be resolved in code that mentions no name of a pure strict builtin. -/
theorem resolved_of_unmentioned (unmentioned : ∀ name, .symbol name ∈ c.code.mentions →
    (r.isStrict name && r.isPure name) = false) : Resolved r env caller c := by
  intro d id f args s name visits symbol strict pure
  have member : .symbol name ∈ f.mentions := by
    cases f with
    | symbol => cases symbol; exact List.mem_singleton.mpr rfl
    | _ => cases symbol
  have plain := unmentioned name (visits.mentions (List.mem_append_left _ member))
  rw [strict, pure] at plain
  cases plain

end Mentioning

namespace Session

/-- `function(a = {b <- NULL; NULL}, b) {a; b}` -/
def rebindsOther : Function :=
  ⟨⟨0⟩, [⟨"a", some (.block ⟨1⟩ [.assign ⟨2⟩ (.symbol ⟨3⟩ "b") (.constant ⟨4⟩ .null) false,
      .constant ⟨5⟩ .null])⟩, ⟨"b", none⟩],
    .block ⟨6⟩ [.symbol ⟨7⟩ "a", .symbol ⟨8⟩ "b"]⟩

/-- A session in which a host made a promise, and its call of the function with the promise for `b` has
come to the body. -/
def rebindsOtherEntered : Session :=
  let promised := (makePromise (.constant ⟨9⟩ .null) global (start {})).2
  (enterFrame (.closure ⟨0⟩ rebindsOther global) rebindsOther global (.call ⟨10⟩ (.symbol ⟨11⟩ "f") [])
    ⟨[some "b"], [.promise ⟨0⟩]⟩ [.unfilled, .supplied 0] ⟨0⟩ none promised).2

/-- The default of the first formal assigns to the second one, whose promise is then not forced although
it is marked and read. -/
theorem marked_formal_rebound :
    let ran := eval 6 rebindsOther.body ⟨2, 0⟩ ⟨1⟩ rebindsOtherEntered
    let start : Point := ⟨6, .expr rebindsOther.body, rebindsOtherEntered⟩
    (rebindsOther.alwaysForced rebindsOtherEntered.builtins)[1]? = some true ∧
      (rebindsOtherEntered.heap.getLocal ⟨2, 0⟩ "b").toOption.bind (·.bind Value.promise?) = some ⟨0⟩ ∧
      ran.1.isOk = true ∧ (ran.2.store.promise ⟨0⟩).state.name = "Unevaluated" ∧
      ReadsFirst rebindsOtherEntered.builtins ⟨2, 0⟩ ⟨1⟩ start "b" ∧ ∀ passes d id u,
        Visits rebindsOtherEntered.builtins ⟨2, 0⟩ ⟨1⟩ passes start ⟨d, .expr (.symbol id "b"), u⟩ →
          u.heap.getLocal ⟨2, 0⟩ "b" ≠ .ok (some (.promise ⟨0⟩)) := by
  have bound : (rebindsOtherEntered.heap.getLocal ⟨2, 0⟩ "b").toOption.bind (·.bind Value.promise?) =
      some ⟨0⟩ := by decide +kernel
  have marked : (rebindsOther.alwaysForced rebindsOtherEntered.builtins)[1]? = some true := by
    decide +kernel
  have there : 0 < rebindsOtherEntered.store.promises.size := by decide +kernel
  have ok : (eval 6 rebindsOther.body ⟨2, 0⟩ ⟨1⟩ rebindsOtherEntered).1.isOk = true := by decide +kernel
  have waits : ((eval 6 rebindsOther.body ⟨2, 0⟩ ⟨1⟩ rebindsOtherEntered).2.store.promise
      ⟨0⟩).state.name = "Unevaluated" := by decide +kernel
  have plain : ∀ name, .symbol name ∈ rebindsOther.body.mentions →
      (rebindsOtherEntered.builtins.isStrict name && rebindsOtherEntered.builtins.isPure name) = false := by
    intro name member
    have read : name = "a" ∨ name = "b" := by
      simpa [rebindsOther, Expr.mentions, Expr.allMentions] using member
    rcases read with rfl | rfl <;> decide +kernel
  -- from here on the session is only known by these facts
  generalize rebindsOtherEntered = s at *
  intro ran start
  refine ⟨marked, bound, ok, waits, ?_⟩
  change ran.1.isOk = true at ok
  change (ran.2.store.promise ⟨0⟩).state.name = "Unevaluated" at waits
  rcases run : ran with ⟨u | v, t⟩
  · rw [run] at ok
    cases ok
  · rw [run] at waits
    rcases marked_formal_forced (by decide) run (resolved_of_unmentioned plain) rfl marked there with
      ⟨w, evaluated⟩ | ⟨home, _, under⟩ | dotted | blank | rebound
    · simp [evaluated, PromiseState.name] at waits
    · simp [under, PromiseState.name] at waits
    · exact absurd dotted (by decide)
    · have member := blank.mentioned
      simp [Code.mentions, rebindsOther, Expr.mentions, Expr.allMentions] at member
    · exact rebound

end Session
end CallByNeed
