import Mathlib
import CallByNeed.Proofs.Readable
import CallByNeed.Store.Identical

/-!
Equality of code. Two pieces of code are the same if they are the same tree, with constants that are the same;
the nodes of the trees have no part in it. Code is compared by its text, which can do no better than the text does.
-/
namespace CallByNeed

section Alike

variable (same : Value → Value → Prop)

mutual

/-- The same tree, with constants related by `same`. -/
inductive Expr.Alike : Expr → Expr → Prop
  | constant (id id' : NodeId) {v w : Value} (related : same v w) : Expr.Alike (.constant id v) (.constant id' w)
  | symbol (id id' : NodeId) (name : Name) : Expr.Alike (.symbol id name) (.symbol id' name)
  | empty (id id' : NodeId) : Expr.Alike (.empty id) (.empty id')
  | call (id id' : NodeId) {f g : Expr} {args others : List Arg} (function : Expr.Alike f g)
    (arguments : Arg.AllAlike args others) : Expr.Alike (.call id f args) (.call id' g others)
  | function (node node' : NodeId) {formals others : List Formal} {body other : Expr}
    (signature : Formal.AllAlike formals others) (inside : Expr.Alike body other) :
    Expr.Alike (.function ⟨node, formals, body⟩) (.function ⟨node', others, other⟩)
  | block (id id' : NodeId) {body other : List Expr} (parts : Expr.AllAlike body other) :
    Expr.Alike (.block id body) (.block id' other)
  | branch (id id' : NodeId) {test test' yes yes' : Expr} {no no' : Option Expr}
    (condition : Expr.Alike test test') (chosen : Expr.Alike yes yes') (other : Expr.OptionAlike no no') :
    Expr.Alike (.branch id test yes no) (.branch id' test' yes' no')
  | assign (id id' : NodeId) {target target' value value' : Expr} (outer : Bool)
    (assigned : Expr.Alike target target') (source : Expr.Alike value value') :
    Expr.Alike (.assign id target value outer) (.assign id' target' value' outer)

inductive Expr.AllAlike : List Expr → List Expr → Prop
  | nil : Expr.AllAlike [] []
  | cons {e e' : Expr} {rest rest' : List Expr} (first : Expr.Alike e e') (others : Expr.AllAlike rest rest') :
    Expr.AllAlike (e :: rest) (e' :: rest')

inductive Expr.OptionAlike : Option Expr → Option Expr → Prop
  | none : Expr.OptionAlike none none
  | some {e e' : Expr} (given : Expr.Alike e e') : Expr.OptionAlike (some e) (some e')

inductive Arg.AllAlike : List Arg → List Arg → Prop
  | nil : Arg.AllAlike [] []
  | cons (name : Option Name) {e e' : Expr} {rest rest' : List Arg} (first : Expr.Alike e e')
    (others : Arg.AllAlike rest rest') : Arg.AllAlike (⟨name, e⟩ :: rest) (⟨name, e'⟩ :: rest')

inductive Formal.AllAlike : List Formal → List Formal → Prop
  | nil : Formal.AllAlike [] []
  | cons (name : Name) {e e' : Option Expr} {rest rest' : List Formal} (first : Expr.OptionAlike e e')
    (others : Formal.AllAlike rest rest') : Formal.AllAlike (⟨name, e⟩ :: rest) (⟨name, e'⟩ :: rest')

end

end Alike

mutual

/-- The constants of an expression. -/
def Expr.constants : Expr → List Value
  | .constant _ v => [v]
  | .symbol .. | .empty _ => []
  | .call _ f args => f.constants ++ Arg.allConstants args
  | .function ⟨_, formals, body⟩ => Formal.allConstants formals ++ body.constants
  | .block _ body => Expr.allConstants body
  | .branch _ test yes no => test.constants ++ yes.constants ++ Expr.optionConstants no
  | .assign _ target value _ => target.constants ++ value.constants

def Expr.allConstants : List Expr → List Value
  | [] => []
  | e :: rest => e.constants ++ Expr.allConstants rest

def Expr.optionConstants : Option Expr → List Value
  | none => []
  | some e => e.constants

def Arg.allConstants : List Arg → List Value
  | [] => []
  | ⟨_, e⟩ :: rest => e.constants ++ Arg.allConstants rest

def Formal.allConstants : List Formal → List Value
  | [] => []
  | ⟨_, default⟩ :: rest => Expr.optionConstants default ++ Formal.allConstants rest

end

section Outlines

/-- Between each of these values and each of those. -/
def Between (R : Value → Value → Prop) (vs ws : List Value) : Prop := ∀ v ∈ vs, ∀ w ∈ ws, R v w

section Between

variable {R : Value → Value → Prop} {vs vs' ws ws' : List Value}

theorem Between.left (between : Between R (vs ++ vs') (ws ++ ws')) : Between R vs ws :=
  fun v member w other => between v (List.mem_append_left _ member) w (List.mem_append_left _ other)

theorem Between.right (between : Between R (vs ++ vs') (ws ++ ws')) : Between R vs' ws' :=
  fun v member w other => between v (List.mem_append_right _ member) w (List.mem_append_right _ other)

theorem Between.single {v w : Value} (between : Between R [v] [w]) : R v w :=
  between v List.mem_cons_self w List.mem_cons_self

end Between

variable {same : Value → Value → Prop} {text : Value → String}

mutual

/-- The same trees have one outline, where constants that are the same have one text. -/
theorem Expr.Alike.outline {a b : Expr} : a.Alike same b →
    Between (fun v w => same v w → text v = text w) a.constants b.constants → a.outline text = b.outline text
  | .constant _ _ related, tells => congrArg Outline.constant (tells.single related)
  | .symbol _ _ _, _ | .empty _ _, _ => rfl
  | .call _ _ function arguments, tells =>
    congrArg₂ Outline.call (function.outline tells.left) (arguments.outlines tells.right)
  | .function _ _ signature inside, tells =>
    congrArg₂ Outline.function (signature.outlines tells.left) (inside.outline tells.right)
  | .block _ _ parts, tells => congrArg Outline.block (parts.outlines tells)
  | .branch _ _ condition chosen other, tells => by
    rw [Expr.outline, Expr.outline, condition.outline tells.left.left, chosen.outline tells.left.right,
      other.outlines tells.right]
  | .assign _ _ _ assigned source, tells => by
    rw [Expr.outline, Expr.outline, assigned.outline tells.left, source.outline tells.right]

theorem Expr.AllAlike.outlines {xs ys : List Expr} : Expr.AllAlike same xs ys →
    Between (fun v w => same v w → text v = text w) (Expr.allConstants xs) (Expr.allConstants ys) →
    Expr.outlines text xs = Expr.outlines text ys
  | .nil, _ => rfl
  | .cons first others, tells => congrArg₂ List.cons (first.outline tells.left) (others.outlines tells.right)

theorem Expr.OptionAlike.outlines {x y : Option Expr} : Expr.OptionAlike same x y →
    Between (fun v w => same v w → text v = text w) (Expr.optionConstants x) (Expr.optionConstants y) →
    Expr.outlineOption text x = Expr.outlineOption text y
  | .none, _ => rfl
  | .some given, tells => congrArg some (given.outline tells)

theorem Arg.AllAlike.outlines {xs ys : List Arg} : Arg.AllAlike same xs ys →
    Between (fun v w => same v w → text v = text w) (Arg.allConstants xs) (Arg.allConstants ys) →
    Arg.outlines text xs = Arg.outlines text ys
  | .nil, _ => rfl
  | .cons name first others, tells =>
    congrArg₂ List.cons (congrArg (Prod.mk name) (first.outline tells.left)) (others.outlines tells.right)

theorem Formal.AllAlike.outlines {xs ys : List Formal} : Formal.AllAlike same xs ys →
    Between (fun v w => same v w → text v = text w) (Formal.allConstants xs) (Formal.allConstants ys) →
    Formal.outlines text xs = Formal.outlines text ys
  | .nil, _ => rfl
  | .cons name first others, tells =>
    congrArg₂ List.cons (congrArg (Prod.mk name) (first.outlines tells.left)) (others.outlines tells.right)

end

@[simp]
theorem Expr.outline_function (f : Function) :
    (Expr.function f).outline text = .function (Formal.outlines text f.formals) (f.body.outline text) := by
  cases f
  rfl

mutual

/-- Code of one outline is the same tree. -/
theorem Expr.alike_of_outline (a b : Expr)
    (tells : Between (fun v w => text v = text w → same v w) a.constants b.constants)
    (outline : a.outline text = b.outline text) : a.Alike same b := by
  cases a with
  | constant id v =>
    cases b with
    | constant id' w =>
      exact .constant id id' (tells.single (Outline.constant.inj outline))
    | _ => simp [Expr.outline] at outline
  | symbol id name =>
    cases b with
    | symbol id' other =>
      cases outline
      exact .symbol id id' name
    | _ => simp [Expr.outline] at outline
  | empty id =>
    cases b with
    | empty id' => exact .empty id id'
    | _ => simp [Expr.outline] at outline
  | call id f args =>
    cases b with
    | call id' g others =>
      obtain ⟨function, arguments⟩ := Outline.call.inj outline
      exact .call id id' (Expr.alike_of_outline f g tells.left function)
        (Arg.allAlike_of_outlines args others tells.right arguments)
    | _ => simp [Expr.outline] at outline
  | function f =>
    obtain ⟨node, formals, body⟩ := f
    cases b with
    | function g =>
      obtain ⟨node', others, other⟩ := g
      obtain ⟨signature, inside⟩ := Outline.function.inj outline
      exact .function node node' (Formal.allAlike_of_outlines formals others tells.left signature)
        (Expr.alike_of_outline body other tells.right inside)
    | _ => simp [Expr.outline] at outline
  | block id body =>
    cases b with
    | block id' other =>
      exact .block id id' (Expr.allAlike_of_outlines body other tells (Outline.block.inj outline))
    | _ => simp [Expr.outline] at outline
  | branch id test yes no =>
    cases b with
    | branch id' test' yes' no' =>
      obtain ⟨condition, chosen, other⟩ := Outline.branch.inj outline
      exact .branch id id' (Expr.alike_of_outline test test' tells.left.left condition)
        (Expr.alike_of_outline yes yes' tells.left.right chosen)
        (Expr.optionAlike_of_outline no no' tells.right other)
    | _ => simp [Expr.outline] at outline
  | assign id target value outer =>
    cases b with
    | assign id' target' value' outer' =>
      obtain ⟨assigned, source, rfl⟩ := Outline.assign.inj outline
      exact .assign id id' outer (Expr.alike_of_outline target target' tells.left assigned)
        (Expr.alike_of_outline value value' tells.right source)
    | _ => simp [Expr.outline] at outline
termination_by structural a

theorem Expr.allAlike_of_outlines (xs ys : List Expr)
    (tells : Between (fun v w => text v = text w → same v w) (Expr.allConstants xs) (Expr.allConstants ys))
    (outlines : Expr.outlines text xs = Expr.outlines text ys) : Expr.AllAlike same xs ys := by
  cases xs with
  | nil =>
    cases ys with
    | nil => exact .nil
    | cons => cases outlines
  | cons e xs =>
    cases ys with
    | nil => cases outlines
    | cons e' ys =>
      obtain ⟨first, others⟩ := List.cons.inj outlines
      exact .cons (Expr.alike_of_outline e e' tells.left first)
        (Expr.allAlike_of_outlines xs ys tells.right others)
termination_by structural xs

theorem Expr.optionAlike_of_outline (x y : Option Expr)
    (tells : Between (fun v w => text v = text w → same v w) (Expr.optionConstants x) (Expr.optionConstants y))
    (outline : Expr.outlineOption text x = Expr.outlineOption text y) : Expr.OptionAlike same x y := by
  cases x with
  | none =>
    cases y with
    | none => exact .none
    | some => cases outline
  | some e =>
    cases y with
    | none => cases outline
    | some e' => exact .some (Expr.alike_of_outline e e' tells (Option.some.inj outline))
termination_by structural x

theorem Arg.allAlike_of_outlines (xs ys : List Arg)
    (tells : Between (fun v w => text v = text w → same v w) (Arg.allConstants xs) (Arg.allConstants ys))
    (outlines : Arg.outlines text xs = Arg.outlines text ys) : Arg.AllAlike same xs ys := by
  cases xs with
  | nil =>
    cases ys with
    | nil => exact .nil
    | cons y => cases y; cases outlines
  | cons x xs =>
    obtain ⟨name, e⟩ := x
    cases ys with
    | nil => cases outlines
    | cons y ys =>
      obtain ⟨name', e'⟩ := y
      obtain ⟨⟨rfl, first⟩, others⟩ := (List.cons.inj outlines).imp_left Prod.mk.inj
      exact .cons name (Expr.alike_of_outline e e' tells.left first)
        (Arg.allAlike_of_outlines xs ys tells.right others)
termination_by structural xs

theorem Formal.allAlike_of_outlines (xs ys : List Formal)
    (tells : Between (fun v w => text v = text w → same v w) (Formal.allConstants xs) (Formal.allConstants ys))
    (outlines : Formal.outlines text xs = Formal.outlines text ys) : Formal.AllAlike same xs ys := by
  cases xs with
  | nil =>
    cases ys with
    | nil => exact .nil
    | cons y => cases y; cases outlines
  | cons x xs =>
    obtain ⟨name, e⟩ := x
    cases ys with
    | nil => cases outlines
    | cons y ys =>
      obtain ⟨name', e'⟩ := y
      obtain ⟨⟨rfl, first⟩, others⟩ := (List.cons.inj outlines).imp_left Prod.mk.inj
      exact .cons name (Expr.optionAlike_of_outline e e' tells.left first)
        (Formal.allAlike_of_outlines xs ys tells.right others)
termination_by structural xs

end

theorem Expr.Alike.symbol? {a b : Expr} (alike : a.Alike same b) : a.symbol? = b.symbol? := by
  cases alike <;> rfl

section Texts

variable {dots : DotsId → Nat} {vector : VectorId → String}

mutual

/-- The same tree, with constants of one text, is written in one way. -/
theorem Expr.Alike.textWith {a b : Expr} :
    a.Alike (fun v w => v.textWith dots vector = w.textWith dots vector) b →
    a.textWith dots vector = b.textWith dots vector
  | .constant _ _ related => related
  | .symbol _ _ _ | .empty _ _ => rfl
  | .call _ _ function arguments => by
    rw [Expr.textWith, Expr.textWith, function.symbol?, function.textWith, arguments.textsWith]
  | .function _ _ signature inside => by
    rw [Expr.textWith, Expr.textWith, signature.textsWith, inside.textWith]
  | .block _ _ parts => by rw [Expr.textWith, Expr.textWith, parts.textsWith]
  | .branch _ _ condition chosen other => by
    rw [Expr.textWith, Expr.textWith, condition.textWith, chosen.textWith, other.elseWith]
  | .assign _ _ _ assigned source => by rw [Expr.textWith, Expr.textWith, assigned.textWith, source.textWith]

theorem Expr.AllAlike.textsWith {xs ys : List Expr} :
    Expr.AllAlike (fun v w => v.textWith dots vector = w.textWith dots vector) xs ys →
    Expr.textsWith dots vector xs = Expr.textsWith dots vector ys
  | .nil => rfl
  | .cons first others => congrArg₂ List.cons first.textWith others.textsWith

theorem Expr.OptionAlike.elseWith {x y : Option Expr} :
    Expr.OptionAlike (fun v w => v.textWith dots vector = w.textWith dots vector) x y →
    Expr.elseWith dots vector x = Expr.elseWith dots vector y
  | .none => rfl
  | .some given => congrArg (" else " ++ ·) given.textWith

theorem Arg.AllAlike.textsWith {xs ys : List Arg} :
    Arg.AllAlike (fun v w => v.textWith dots vector = w.textWith dots vector) xs ys →
    Arg.textsWith dots vector xs = Arg.textsWith dots vector ys
  | .nil => rfl
  | .cons name first others => congrArg₂ List.cons (congrArg (Prod.mk name) first.textWith) others.textsWith

theorem Formal.AllAlike.textsWith {xs ys : List Formal} :
    Formal.AllAlike (fun v w => v.textWith dots vector = w.textWith dots vector) xs ys →
    Formal.textsWith dots vector xs = Formal.textsWith dots vector ys
  | .nil => rfl
  | .cons name .none others => congrArg (List.cons name) others.textsWith
  | .cons name (.some given) others =>
    congrArg₂ List.cons (congrArg (name ++ " = " ++ ·) given.textWith) others.textsWith

end

end Texts

end Outlines

namespace Elements

/-- Contents of one element that is no number with a point. -/
inductive Single : Elements → Prop
  | logical (x : Bool) : Single (.logical [x])
  | integer (x : Int64) : Single (.integer [x])
  | character (x : String) : Single (.character [x])

section Single

variable {xs ys : Elements} (child : Value → String)

theorem shown_logical (x : Bool) : (logical [x]).shown child = logicalText x := by
  simp [shown, quotedTexts, texts, length, String.join]

theorem shown_integer (x : Int64) : (integer [x]).shown child = x.toInt.repr := by
  simp [shown, quotedTexts, texts, length, String.join]

theorem shown_character (x : String) : (character [x]).shown child = "\"" ++ x ++ "\"" := by
  simp [shown, quotedTexts, length, String.join]

/-- The type of a constant from the first letter of its text; `NULL` counts as a list. -/
def rankOf (letter : Char) : Nat :=
  if letter = '"' then 3 else if letter.isDigit || letter = '-' then 1 else if letter = 'N' then listRank else 0

/-- A number begins with a digit or with its sign. -/
theorem rankOf_number (n : Int) : n.repr.toList.head?.map rankOf = some 1 := by
  have natural (m : Nat) : m.repr.toList.head?.map rankOf = some 1 := by
    rw [Nat.toList_repr]
    cases digits : Nat.toDigits 10 m with
    | nil => exact absurd digits Nat.toDigits_ne_nil
    | cons c rest =>
      have digit : c.isDigit := Nat.isDigit_of_mem_toDigits (by decide) (by decide) (digits ▸ List.mem_cons_self)
      have letter : c ≠ '"' := by
        rintro rfl
        cases digit
      simp [rankOf, digit, letter]
  cases n with
  | ofNat m => exact natural m
  | negSucc m => simp [Int.repr, rankOf]

theorem Single.rankOf_shown (single : xs.Single) : (xs.shown child).toList.head?.map rankOf = some xs.rank := by
  cases single with
  | logical x => cases x <;> rw [shown_logical] <;> rfl
  | integer x => rw [shown_integer, rankOf_number, rank]
  | character x => simp [shown_character, rankOf, rank]

theorem Single.shown_ne_null (single : xs.Single) : xs.shown child ≠ "NULL" := by
  intro same
  have rank := single.rankOf_shown child
  rw [same] at rank
  cases single <;> cases rank

/-- Two such constants have one text only if they are one. -/
theorem Single.shown_iff (first : xs.Single) (second : ys.Single) : xs.shown child = ys.shown child ↔ xs = ys := by
  refine ⟨fun same => ?_, fun same => same ▸ rfl⟩
  have rank : xs.rank = ys.rank := by
    rw [← Option.some.injEq, ← first.rankOf_shown child, ← second.rankOf_shown child, same]
  cases first with
  | logical x =>
    cases second with
    | logical y =>
      rw [shown_logical, shown_logical] at same
      cases x <;> cases y <;> first | rfl | simp [logicalText] at same
    | _ => cases rank
  | integer x =>
    cases second with
    | integer y =>
      rw [shown_integer, shown_integer] at same
      rw [Int64.toInt_inj.mp (Int.repr_injective same)]
    | _ => cases rank
  | character x =>
    cases second with
    | character y =>
      rw [shown_character, shown_character] at same
      simpa using same
    | _ => cases rank

theorem Single.identical_iff (first : xs.Single) (second : ys.Single) (same : Value → Value → Bool) :
    xs.identical same ys = true ↔ xs = ys := by
  cases first <;> cases second <;> simp [identical]

end Single

end Elements

namespace Store

/-- `NULL`, or a bare vector of one element that is no number with a point. -/
inductive Plain (s : Store) : Value → Prop
  | null : s.Plain .null
  | vector (id : VectorId) (single : (s.elements id).Single) (bare : (s.container id).attributes.entries = []) :
    s.Plain (.vector id)

variable {s : Store} {v w : Value}

theorem plain_identical_iff (first : s.Plain v) (second : s.Plain w) :
    s.identical v w = true ↔ s.valueText v = s.valueText w := by
  cases first with
  | null =>
    cases second with
    | null => exact ⟨fun _ => rfl, fun _ => rfl⟩
    | vector d single bare => exact ⟨nofun, fun same => absurd same.symm (single.shown_ne_null _)⟩
  | vector c single bare =>
    cases second with
    | null => exact ⟨nofun, fun same => absurd same (single.shown_ne_null _)⟩
    | vector d single' bare' =>
      have text := single.shown_iff (Value.textWith s.dotsLength (s.vectorText s.vectors.size)) single'
      refine Iff.trans ?_ text.symm
      change s.vectorsIdentical (s.vectors.size + 1) c d = true ↔ _
      rw [vectorsIdentical, Bool.or_eq_true, Bool.and_eq_true, single.identical_iff single', Attributes.identical,
        bare, bare']
      exact ⟨fun same => same.elim (fun same => of_decide_eq_true same ▸ rfl) And.left,
        fun same => .inr ⟨same, rfl⟩⟩

variable {G : Strengths} {a b : Expr}

theorem identical_of_text (same : s.exprText a = s.exprText b) :
    s.identical (.language a) (.language b) = true := by
  change (decide (a.id = b.id) || s.exprText a == s.exprText b) = true
  rw [same, beq_self_eq_true, Bool.or_true]

theorem identical_code_iff (nodes : a.id = b.id → a = b) :
    s.identical (.language a) (.language b) = true ↔ s.exprText a = s.exprText b := by
  refine ⟨fun same => ?_, identical_of_text⟩
  rcases (Bool.or_eq_true _ _).mp same with node | text
  · rw [nodes (of_decide_eq_true node)]
  · exact beq_iff_eq.mp text

/-- Code that can be read back is told by its text. -/
theorem outline_of_text (first : Readable G s 0 .stop a) (second : Readable G s 0 .stop b)
    (same : s.exprText a = s.exprText b) : a.outline s.valueText = b.outline s.valueText := by
  have read {e : Expr} (readable : Readable G s 0 .stop e) :
      Outline.Settles (Outline.read G · 0 (s.exprText e).toList) (e.outline s.valueText, []) := by
    have whole := readable.settles .nothing (Following.Begins.nothing.settles trivial)
    rwa [letters, List.append_nil] at whole
  exact (Prod.mk.inj ((same ▸ read first).unique (read second))).1

/-- A call of an operator between two operands. -/
def operation (id fid : NodeId) (op : Name) (l r : Expr) : Expr :=
  .call id (.symbol fid op) [⟨none, l⟩, ⟨none, r⟩]

/-- Two operators in a row are written the same way in whichever order they apply. -/
theorem exprText_regrouped (n : Nat → NodeId) {op op' : Name} (known : op ∈ binaryOperators)
    (known' : op' ∈ binaryOperators) (x y z : Expr) :
    s.exprText (operation (n 0) (n 1) op' (operation (n 2) (n 3) op x y) z) =
      s.exprText (operation (n 4) (n 5) op x (operation (n 6) (n 7) op' y z)) := by
  unfold operation
  rw [exprText_operator s known', exprText_operator s known, exprText_operator s known,
    exprText_operator s known']
  simp only [String.append_assoc]

theorem not_alike_regrouped (same : Value → Value → Prop) (n : Nat → NodeId) (op op' : Name) (x y z : Expr) :
    ¬ (operation (n 0) (n 1) op' (operation (n 2) (n 3) op x y) z).Alike same
      (operation (n 4) (n 5) op x (operation (n 6) (n 7) op' y z)) := by
  intro alike
  -- Its first operand would be the same as a part of it.
  have outline : Expr.outline (fun _ => "") _ = Expr.outline (fun _ => "") _ := alike.outline fun _ _ _ _ _ => rfl
  have operand : Outline.call (.symbol op) [(none, x.outline fun _ => ""), (none, y.outline fun _ => "")] =
      x.outline fun _ => "" :=
    (Prod.mk.inj (List.cons.inj (Outline.call.inj outline).2).1).2
  have size := congrArg sizeOf operand
  simp only [Outline.call.sizeOf_spec, List.cons.sizeOf_spec, Prod.mk.sizeOf_spec] at size
  omega

theorem alike_names {same : Value → Value → Prop} {id fid id' fid' : NodeId} {op : Name} {x y : Expr}
    {p q p' q' : Option Name} (alike : (Expr.call id (.symbol fid op) [⟨p, x⟩, ⟨q, y⟩]).Alike same
      (.call id' (.symbol fid' op) [⟨p', x⟩, ⟨q', y⟩])) : p = p' ∧ q = q' := by
  cases alike with
  | call _ _ _ arguments =>
    cases arguments with
    | cons _ _ others =>
      cases others with
      | cons => exact ⟨rfl, rfl⟩

/-- Quoted code is compared by its text. Code that can be read back from its text is identical exactly if it is the
same tree, with constants of one text; for logical and integer constants and strings that is with constants that
are identical. The same tree is always identical; but so are, in general, two trees that differ in the order in
which operators apply, or in the names of operands. -/
theorem quoted_code_by_text (s : Store) :
    (∀ G a b, Readable G s 0 .stop a → Readable G s 0 .stop b → (a.id = b.id → a = b) →
      (s.identical (.language a) (.language b) = true ↔ a.Alike (fun v w => s.valueText v = s.valueText w) b) ∧
      ((∀ v ∈ a.constants ++ b.constants, s.Plain v) →
        (s.identical (.language a) (.language b) = true ↔ a.Alike (fun v w => s.identical v w = true) b))) ∧
    (∀ a b : Expr, a.Alike (fun v w => s.valueText v = s.valueText w) b →
      s.identical (.language a) (.language b) = true) ∧
    (∀ op ∈ binaryOperators, ∀ op' ∈ binaryOperators, ∀ (n : Nat → NodeId) (x y z : Expr),
      let left := operation (n 0) (n 1) op' (operation (n 2) (n 3) op x y) z
      let right := operation (n 4) (n 5) op x (operation (n 6) (n 7) op' y z)
      s.identical (.language left) (.language right) = true ∧ ∀ same, ¬ left.Alike same right) ∧
    ∀ op ∈ binaryOperators, ∀ (n : Nat → NodeId) (x y : Expr) (p q p' q' : Option Name),
      let one := Expr.call (n 0) (.symbol (n 1) op) [⟨p, x⟩, ⟨q, y⟩]
      let other := Expr.call (n 2) (.symbol (n 3) op) [⟨p', x⟩, ⟨q', y⟩]
      s.identical (.language one) (.language other) = true ∧
        ∀ same, one.Alike same other → p = p' ∧ q = q' := by
  refine ⟨fun G a b first second nodes => ?_, fun a b alike => identical_of_text alike.textWith,
    fun op known op' known' n x y z =>
      ⟨identical_of_text (exprText_regrouped n known known' x y z), fun same =>
        not_alike_regrouped same n op op' x y z⟩,
    fun op known n x y p q p' q' => ⟨identical_of_text ((exprText_operator s known p q x y).trans
      (exprText_operator s known p' q' x y).symm), fun same alike => alike_names alike⟩⟩
  have outlines (same : s.identical (.language a) (.language b) = true) :=
    outline_of_text first second ((identical_code_iff nodes).mp same)
  have texts (outlines : a.outline s.valueText = b.outline s.valueText) :
      a.Alike (fun v w => s.valueText v = s.valueText w) b :=
    Expr.alike_of_outline a b (fun _ _ _ _ same => same) outlines
  refine ⟨⟨fun same => texts (outlines same), fun alike => identical_of_text alike.textWith⟩, fun plain => ?_⟩
  have told : Between (fun v w => s.identical v w = true ↔ s.valueText v = s.valueText w)
      a.constants b.constants := fun v member w other =>
    plain_identical_iff (plain v (List.mem_append_left _ member)) (plain w (List.mem_append_right _ other))
  constructor
  · intro same
    exact Expr.alike_of_outline a b (fun v member w other => (told v member w other).mpr) (outlines same)
  · intro alike
    exact identical_of_text (texts (alike.outline fun v member w other => (told v member w other).mp)).textWith

/-- `x + y * 1` is the same as code of the same shape with other nodes, and not the same as `x * y + 1`; but the
product of `x + y` and `1` counts as identical to it. -/
theorem operators_regrouped_identical :
    let s : Store := { vectors := #[{ elements := .integer [1] }] }
    let G : Strengths := ⟨fun op => if op = "*" then 2 else 0, fun _ => 4⟩
    let one : Expr := .constant ⟨20⟩ (.vector ⟨0⟩)
    let x : Expr := .symbol ⟨21⟩ "x"
    let y : Expr := .symbol ⟨22⟩ "y"
    let sum (n : Nat) : Expr := operation ⟨n⟩ ⟨n + 1⟩ "+" x (operation ⟨n + 2⟩ ⟨n + 3⟩ "*" y one)
    let other : Expr := operation ⟨12⟩ ⟨13⟩ "+" (operation ⟨14⟩ ⟨15⟩ "*" x y) one
    let product : Expr := operation ⟨0⟩ ⟨1⟩ "*" (operation ⟨2⟩ ⟨3⟩ "+" x y) one
    Readable G s 0 .stop (sum 4) ∧ Readable G s 0 .stop other ∧
      s.identical (.language (sum 4)) (.language (sum 8)) = true ∧
      s.identical (.language (sum 4)) (.language other) = false ∧
      s.identical (.language product) (.language (sum 4)) = true ∧
      ∀ same, ¬ product.Alike same (sum 4) := by
  intro s G one x y sum other product
  have free : IsFree "x" ∧ IsFree "y" := by
    constructor <;> exact ⟨nofun, List.forall_mem_singleton.mpr rfl, ⟨by decide, by decide⟩, rfl⟩
  have text : s.valueText (.vector ⟨0⟩) = "1" :=
    Elements.shown_integer (Value.textWith s.dotsLength (s.vectorText 1)) 1
  have literal : IsLiteral (s.valueText (.vector ⟨0⟩)) :=
    text ▸ .word nofun (List.forall_mem_singleton.mpr rfl) rfl
  have plain : s.Plain (.vector ⟨0⟩) := .vector ⟨0⟩ (.integer 1) rfl
  have sums (n : Nat) : Readable G s 0 .stop (sum n) :=
    .operator _ _ (by decide) (by decide) (.symbol _ free.1)
      (.operator _ _ (by decide) (by decide) (.symbol _ free.2) (.constant _ literal) trivial) trivial
  have others : Readable G s 0 .stop other :=
    .operator _ _ (by decide) (by decide)
      (.operator _ _ (by decide) (by decide) (.symbol _ free.1) (.symbol _ free.2)
        (show G.binary "+" + 1 < G.binary "*" + 2 by decide))
      (.constant _ literal) trivial
  obtain ⟨readable, -, regrouped, -⟩ := quoted_code_by_text s
  have single (v : Value) (member : v ∈ (sum 4).constants ++ (sum 8).constants) : s.Plain v := by
    rw [show (sum 4).constants ++ (sum 8).constants = [.vector ⟨0⟩, .vector ⟨0⟩] from rfl] at member
    rcases List.mem_pair.mp member with rfl | rfl <;> exact plain
  have alike : (sum 4).Alike (fun v w => s.identical v w = true) (sum 8) :=
    .call _ _ (.symbol _ _ _) (.cons _ (.symbol _ _ _) (.cons _ (.call _ _ (.symbol _ _ _)
      (.cons _ (.symbol _ _ _) (.cons _ (.constant _ _ ((plain_identical_iff plain plain).mpr rfl)) .nil))) .nil))
  have apart : ¬ (sum 4).Alike (fun v w => s.valueText v = s.valueText w) other := by
    intro alike
    have outline : Expr.outline s.valueText _ = Expr.outline s.valueText _ :=
      alike.outline fun _ _ _ _ same => same
    have operand : Outline.symbol "x" = .call (.symbol "*") [(none, .symbol "x"), (none, .symbol "y")] :=
      (Prod.mk.inj (List.cons.inj (Outline.call.inj outline).2).1).2
    cases operand
  obtain ⟨identical, unlike⟩ := regrouped "+" (by decide) "*" (by decide) (fun i => ⟨i⟩) x y one
  exact ⟨sums 4, others, ((readable G _ _ (sums 4) (sums 8) nofun).2 single).mpr alike,
    Bool.eq_false_iff.mpr fun same => apart ((readable G _ _ (sums 4) others nofun).1.mp same), identical, unlike⟩

end Store
end CallByNeed
