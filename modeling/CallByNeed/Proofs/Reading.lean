import CallByNeed.Store.Text

/-!
Reading code back from its text. The reader is told how strongly the operators bind. It reads a first piece and
then what goes on from there: arguments and elements first, then operators that bind strongly enough. Each step
takes fuel; what is read with more and more of it settles.
-/
namespace CallByNeed

/-- Code without the identities of its nodes, and with the texts of its constants. -/
inductive Outline where
  | constant (text : String)
  | symbol (name : Name)
  | empty
  | call (function : Outline) (args : List (Option Name × Outline))
  | function (formals : List (Name × Option Outline)) (body : Outline)
  | block (body : List Outline)
  | branch (test yes : Outline) (no : Option Outline)
  | assign (target value : Outline) (outer : Bool)

mutual

def Expr.outline (text : Value → String) : Expr → Outline
  | .constant _ v => .constant (text v)
  | .symbol _ name => .symbol name
  | .empty _ => .empty
  | .call _ f args => .call (f.outline text) (Arg.outlines text args)
  | .function ⟨_, formals, body⟩ => .function (Formal.outlines text formals) (body.outline text)
  | .block _ body => .block (Expr.outlines text body)
  | .branch _ test yes no => .branch (test.outline text) (yes.outline text) (Expr.outlineOption text no)
  | .assign _ target value outer => .assign (target.outline text) (value.outline text) outer

def Expr.outlines (text : Value → String) : List Expr → List Outline
  | [] => []
  | e :: rest => e.outline text :: Expr.outlines text rest

def Expr.outlineOption (text : Value → String) : Option Expr → Option Outline
  | none => none
  | some e => some (e.outline text)

def Arg.outlines (text : Value → String) : List Arg → List (Option Name × Outline)
  | [] => []
  | ⟨name, e⟩ :: rest => (name, e.outline text) :: Arg.outlines text rest

def Formal.outlines (text : Value → String) : List Formal → List (Name × Option Outline)
  | [] => []
  | ⟨name, default⟩ :: rest => (name, Expr.outlineOption text default) :: Formal.outlines text rest

end

/-- How strongly operators bind: those between two operands, all more strongly than an assignment, and those
before one. -/
structure Strengths where
  binary : Name → Nat
  unary : Name → Nat

namespace Outline

/-- Characters that names and numbers are written with. -/
def isWord (c : Char) : Bool := !" ()[]\x7b\x7d,;=+-*/<>!\"".toList.contains c

/-- Words that are constants. -/
def isConstant (word : List Char) : Bool :=
  word.head?.any Char.isDigit || ["TRUE", "FALSE", "NULL", "NaN", "Inf"].contains (String.ofList word)

def ofWord (word : List Char) : Outline :=
  if isConstant word then .constant (String.ofList word) else .symbol (String.ofList word)

/-- A formal as it is read in the way of an argument. -/
def formal : Option Name × Outline → Name × Option Outline
  | (some name, default) => (name, some default)
  | (none, symbol name) => (name, none)
  | (none, _) => ("", none)

/-- What goes on from an expression after a blank. -/
inductive Sign where
  | operator (name : Name)
  | arrow (outer : Bool)

def Sign.ofName? (name : Name) : Option Sign :=
  if name = "<-" then some (.arrow false)
  else if name = "<<-" then some (.arrow true)
  else if binaryOperators.contains name then some (.operator name)
  else none

/-- A sign with blanks around it, and what follows. -/
def Sign.read? : List Char → Option (Sign × List Char)
  | ' ' :: cs =>
    match cs.dropWhile (· ≠ ' ') with
    | ' ' :: rest => (ofName? (String.ofList (cs.takeWhile (· ≠ ' ')))).map (·, rest)
    | _ => none
  | _ => none

mutual

/-- An expression whose operators bind at least so strongly. -/
def read (G : Strengths) : Nat → Nat → List Char → Outline × List Char
  | 0, _, cs => (empty, cs)
  | fuel + 1, strength, cs =>
    let (e, rest) := readFirst G fuel cs
    readOn G fuel strength e rest

/-- An expression up to where another one could go on from it. -/
def readFirst (G : Strengths) : Nat → List Char → Outline × List Char
  | 0, cs => (empty, cs)
  | fuel + 1, cs =>
    let word := cs.takeWhile isWord
    let after := cs.dropWhile isWord
    if word = [] then
      match cs with
      | '"' :: cs =>
        (constant (String.ofList ('"' :: cs.takeWhile (· ≠ '"') ++ ['"'])), (cs.dropWhile (· ≠ '"')).drop 1)
      | '\x7b' :: cs =>
        let (items, rest) := readItems G fuel ';' cs
        (block (items.map (·.2)), rest.drop 1)
      | '-' :: cs =>
        let (e, rest) := read G fuel (G.unary "-") cs
        (call (symbol "-") [(none, e)], rest)
      | '!' :: cs =>
        let (e, rest) := read G fuel (G.unary "!") cs
        (call (symbol "!") [(none, e)], rest)
      | cs => (empty, cs)
    else if word = "if".toList then
      let (test, rest) := read G fuel 0 (after.drop 2)
      let (yes, rest) := read G fuel 0 (rest.drop 2)
      let (no, rest) := readElse G fuel rest
      (branch test yes no, rest)
    else if word = "function".toList then
      let (items, rest) := readItems G fuel ',' (after.drop 1)
      let (body, rest) := read G fuel 0 (rest.drop 2)
      (function (items.map formal) body, rest)
    else (ofWord word, after)

def readElse (G : Strengths) : Nat → List Char → Option Outline × List Char
  | 0, cs => (none, cs)
  | fuel + 1, cs =>
    match cs with
    | ' ' :: 'e' :: 'l' :: 's' :: 'e' :: ' ' :: cs =>
      let (no, rest) := read G fuel 0 cs
      (some no, rest)
    | cs => (none, cs)

/-- What goes on from an expression, with operators that bind at least so strongly. -/
def readOn (G : Strengths) : Nat → Nat → Outline → List Char → Outline × List Char
  | 0, _, e, cs => (e, cs)
  | fuel + 1, strength, e, cs =>
    match cs with
    | '(' :: cs =>
      let (args, rest) := readItems G fuel ',' cs
      readOn G fuel strength (call e args) (rest.drop 1)
    | '[' :: '[' :: cs =>
      let (args, rest) := readItems G fuel ',' cs
      readOn G fuel strength (call (symbol "[[") ((none, e) :: args)) (rest.drop 2)
    | cs =>
      match Sign.read? cs with
      | some (.operator op, rest) =>
        if strength ≤ G.binary op + 1 then
          let (rhs, rest) := read G fuel (G.binary op + 2) rest
          readOn G fuel strength (call (symbol op) [(none, e), (none, rhs)]) rest
        else (e, cs)
      | some (.arrow outer, rest) =>
        if strength = 0 then
          let (value, rest) := read G fuel 0 rest
          readOn G fuel strength (assign e value outer) rest
        else (e, cs)
      | none => (e, cs)

/-- Expressions with a separator between them, which may have names. A single one left out counts as none. -/
def readItems (G : Strengths) : Nat → Char → List Char → List (Option Name × Outline) × List Char
  | 0, _, cs => ([], cs)
  | fuel + 1, separator, cs =>
    match readSome G fuel separator cs with
    | ([(none, empty)], rest) => ([], rest)
    | (items, rest) => (items, rest)

def readSome (G : Strengths) : Nat → Char → List Char → List (Option Name × Outline) × List Char
  | 0, _, cs => ([], cs)
  | fuel + 1, separator, cs =>
    let (item, rest) := readItem G fuel cs
    match rest with
    | c :: ' ' :: next =>
      if c = separator then
        let (items, rest) := readSome G fuel separator next
        (item :: items, rest)
      else ([item], rest)
    | rest => ([item], rest)

def readItem (G : Strengths) : Nat → List Char → (Option Name × Outline) × List Char
  | 0, cs => ((none, empty), cs)
  | fuel + 1, cs =>
    match read G fuel 0 cs with
    | (symbol name, ' ' :: '=' :: ' ' :: rest) =>
      let (e, rest) := read G fuel 0 rest
      ((some name, e), rest)
    | (e, rest) => ((none, e), rest)

end

/-! Reading with enough fuel. -/

/-- With enough fuel it is always this. -/
def Settles {α : Type} (f : Nat → α) (a : α) : Prop := ∃ enough, ∀ fuel ≥ enough, f fuel = a

namespace Settles

variable {α β γ : Type} {f : Nat → α} {g : Nat → β} {h : Nat → γ} {a a' : α} {b : β} {c : γ}

theorem unique (first : Settles f a) (second : Settles f a') : a = a' := by
  obtain ⟨n, first⟩ := first
  obtain ⟨m, second⟩ := second
  rw [← first (max n m) (Nat.le_max_left _ _), second (max n m) (Nat.le_max_right _ _)]

theorem both (first : Settles f a) (second : Settles g b) : Settles (fun fuel => (f fuel, g fuel)) (a, b) := by
  obtain ⟨n, first⟩ := first
  obtain ⟨m, second⟩ := second
  exact ⟨max n m, fun fuel enough =>
    Prod.ext (first fuel (Nat.le_trans (Nat.le_max_left _ _) enough))
      (second fuel (Nat.le_trans (Nat.le_max_right _ _) enough))⟩

/-- A step takes one unit of fuel. -/
theorem step (before : Settles f a) (step : ∀ fuel, f fuel = a → g (fuel + 1) = b) : Settles g b := by
  obtain ⟨n, before⟩ := before
  refine ⟨n + 1, fun fuel enough => ?_⟩
  obtain ⟨fuel, rfl⟩ := Nat.exists_eq_succ_of_ne_zero (Nat.ne_of_gt (Nat.lt_of_lt_of_le n.succ_pos enough))
  exact step fuel (before fuel (Nat.le_of_succ_le_succ enough))

theorem steps (first : Settles f a) (second : Settles h c)
    (step : ∀ fuel, f fuel = a → h fuel = c → g (fuel + 1) = b) : Settles g b :=
  (first.both second).step fun fuel same =>
    step fuel (Prod.mk.inj same).1 (Prod.mk.inj same).2

theorem atOnce (step : ∀ fuel, g (fuel + 1) = b) : Settles g b :=
  Settles.step (f := fun _ => ()) ⟨0, fun _ _ => rfl⟩ fun fuel _ => step fuel

end Settles

section Rules

variable {G : Strengths} {strength : Nat} {e : Outline} {cs rest more : List Char}
  {last : Outline × List Char} {items : List (Option Name × Outline)} {item : Option Name × Outline}
  {separator : Char}

theorem settles_read (first : Settles (readFirst G · cs) (e, rest))
    (on : Settles (readOn G · strength e rest) last) : Settles (read G · strength cs) last :=
  first.steps on fun fuel first on => by
    rw [read, first]
    exact on

/-! First pieces. -/

theorem settles_quoted {t : List Char} (plain : '"' ∉ t) :
    Settles (readFirst G · ('"' :: (t ++ '"' :: rest)))
      (constant (String.ofList ('"' :: (t ++ ['"']))), rest) := by
  have inside : ∀ c ∈ t, (c ≠ '"' : Bool) = true := fun c member =>
    decide_eq_true fun same => plain (same ▸ member)
  have taken : (t ++ '"' :: rest).takeWhile (· ≠ '"') = t := by
    rw [List.takeWhile_append_of_pos inside]
    exact List.append_nil t
  have left : (t ++ '"' :: rest).dropWhile (· ≠ '"') = '"' :: rest := by
    rw [List.dropWhile_append_of_pos inside]
    rfl
  refine .atOnce fun fuel => ?_
  change (constant (String.ofList ('"' :: (t ++ '"' :: rest).takeWhile (· ≠ '"') ++ ['"'])),
    ((t ++ '"' :: rest).dropWhile (· ≠ '"')).drop 1) = _
  rw [taken, left]
  rfl

theorem settles_block (inside : Settles (readItems G · ';' cs) (items, '\x7d' :: rest)) :
    Settles (readFirst G · ('\x7b' :: cs)) (block (items.map (·.2)), rest) :=
  inside.step fun fuel inside => by
    change (block ((readItems G fuel ';' cs).1.map (·.2)), (readItems G fuel ';' cs).2.drop 1) = _
    rw [inside]
    rfl

theorem settles_minus (operand : Settles (read G · (G.unary "-") cs) (e, rest)) :
    Settles (readFirst G · ('-' :: cs)) (call (symbol "-") [(none, e)], rest) :=
  operand.step fun fuel operand => by
    change (call (symbol "-") [(none, (read G fuel (G.unary "-") cs).1)], (read G fuel (G.unary "-") cs).2) = _
    rw [operand]

theorem settles_not (operand : Settles (read G · (G.unary "!") cs) (e, rest)) :
    Settles (readFirst G · ('!' :: cs)) (call (symbol "!") [(none, e)], rest) :=
  operand.step fun fuel operand => by
    change (call (symbol "!") [(none, (read G fuel (G.unary "!") cs).1)], (read G fuel (G.unary "!") cs).2) = _
    rw [operand]

theorem takeWhile_word {word : List Char} (letters : ∀ c ∈ word, isWord c = true)
    (ends : rest.head?.all (!isWord ·)) : (word ++ rest).takeWhile isWord = word := by
  rw [List.takeWhile_append_of_pos letters]
  cases rest with
  | nil => exact List.append_nil word
  | cons c rest =>
    have mark : isWord c = false := by simpa using ends
    rw [List.takeWhile_cons_of_neg (by rw [mark]; exact Bool.false_ne_true), List.append_nil]

theorem dropWhile_word {word : List Char} (letters : ∀ c ∈ word, isWord c = true)
    (ends : rest.head?.all (!isWord ·)) : (word ++ rest).dropWhile isWord = rest := by
  rw [List.dropWhile_append_of_pos letters]
  cases rest with
  | nil => rfl
  | cons c rest =>
    have mark : isWord c = false := by simpa using ends
    rw [List.dropWhile_cons_of_neg (by rw [mark]; exact Bool.false_ne_true)]

theorem settles_word {word : List Char} (nonempty : word ≠ []) (letters : ∀ c ∈ word, isWord c = true)
    (free : word ≠ "if".toList ∧ word ≠ "function".toList) (ends : rest.head?.all (!isWord ·)) :
    Settles (readFirst G · (word ++ rest)) (ofWord word, rest) := by
  refine .atOnce fun fuel => ?_
  unfold readFirst
  dsimp only
  rw [takeWhile_word letters ends, dropWhile_word letters ends, if_neg nonempty, if_neg free.1, if_neg free.2]

/-- Nothing is read before what ends an expression or goes on from it. -/
theorem settles_empty (nothing : cs.head?.all fun c => " )]\x7d,;([".toList.contains c) :
    Settles (readFirst G · cs) (empty, cs) := by
  refine .atOnce fun fuel => ?_
  cases cs with
  | nil => rfl
  | cons c cs =>
    have known : c ∈ [' ', ')', ']', '\x7d', ',', ';', '(', '['] := by simpa using nothing
    simp only [List.mem_cons, List.not_mem_nil, or_false] at known
    rcases known with rfl | rfl | rfl | rfl | rfl | rfl | rfl | rfl <;> rfl

theorem settles_branch {before after : List Char} {test yes : Outline} {no : Option Outline}
    (first : Settles (read G · 0 cs) (test, ')' :: ' ' :: before))
    (second : Settles (read G · 0 before) (yes, after)) (other : Settles (readElse G · after) (no, rest)) :
    Settles (readFirst G · ("if (".toList ++ cs)) (branch test yes no, rest) :=
  (first.both second).steps other fun fuel both other => by
    obtain ⟨first, second⟩ := Prod.mk.inj both
    have step : readFirst G (fuel + 1) ("if (".toList ++ cs) =
        (let (test, rest) := read G fuel 0 cs
        let (yes, rest) := read G fuel 0 (rest.drop 2)
        let (no, rest) := readElse G fuel rest
        (branch test yes no, rest)) := rfl
    rw [step, first]
    change (branch test (read G fuel 0 before).1 (readElse G fuel (read G fuel 0 before).2).1,
      (readElse G fuel (read G fuel 0 before).2).2) = _
    rw [second, other]

theorem settles_else {no : Outline} (other : Settles (read G · 0 cs) (no, rest)) :
    Settles (readElse G · (" else ".toList ++ cs)) (some no, rest) :=
  other.step fun fuel other => by
    change (some (read G fuel 0 cs).1, (read G fuel 0 cs).2) = _
    rw [other]

theorem settles_without_else (ends : ∀ more, rest ≠ " else ".toList ++ more) :
    Settles (readElse G · rest) (none, rest) := by
  refine .atOnce fun fuel => ?_
  unfold readElse
  dsimp only
  split
  · exact absurd rfl (ends _)
  · rfl

theorem settles_function {after : List Char} {body : Outline}
    (formals : Settles (readItems G · ',' cs) (items, ')' :: ' ' :: after))
    (inside : Settles (read G · 0 after) (body, rest)) :
    Settles (readFirst G · ("function(".toList ++ cs)) (function (items.map formal) body, rest) :=
  formals.steps inside fun fuel formals inside => by
    have step : readFirst G (fuel + 1) ("function(".toList ++ cs) =
        (let (items, rest) := readItems G fuel ',' cs
        let (body, rest) := read G fuel 0 (rest.drop 2)
        (function (items.map formal) body, rest)) := rfl
    rw [step, formals]
    change (function (items.map formal) (read G fuel 0 after).1, (read G fuel 0 after).2) = _
    rw [inside]

/-! What goes on. -/

theorem settles_call (args : Settles (readItems G · ',' cs) (items, ')' :: rest))
    (on : Settles (readOn G · strength (call e items) rest) last) :
    Settles (readOn G · strength e ('(' :: cs)) last :=
  args.steps on fun fuel args on => by
    rw [readOn, args]
    exact on

theorem settles_index (args : Settles (readItems G · ',' cs) (items, ']' :: ']' :: rest))
    (on : Settles (readOn G · strength (call (symbol "[[") ((none, e) :: items)) rest) last) :
    Settles (readOn G · strength e ('[' :: '[' :: cs)) last :=
  args.steps on fun fuel args on => by
    rw [readOn, args]
    exact on

theorem settles_operator {op : Name} {rhs : Outline} (sign : Sign.read? cs = some (.operator op, more))
    (enough : strength ≤ G.binary op + 1) (right : Settles (read G · (G.binary op + 2) more) (rhs, rest))
    (on : Settles (readOn G · strength (call (symbol op) [(none, e), (none, rhs)]) rest) last) :
    Settles (readOn G · strength e cs) last :=
  right.steps on fun fuel right on => by
    unfold readOn
    split
    · cases sign
    · cases sign
    · rw [sign]
      dsimp only
      rw [if_pos enough, right]
      exact on

theorem settles_arrow {outer : Bool} {value : Outline} (sign : Sign.read? cs = some (.arrow outer, more))
    (right : Settles (read G · 0 more) (value, rest))
    (on : Settles (readOn G · 0 (assign e value outer) rest) last) :
    Settles (readOn G · 0 e cs) last :=
  right.steps on fun fuel right on => by
    unfold readOn
    split
    · cases sign
    · cases sign
    · rw [sign]
      dsimp only
      rw [if_pos rfl, right]
      exact on

/-- Nothing goes on where there are no arguments and no element, and each sign binds too weakly. -/
theorem settles_stop (args : ∀ more, cs ≠ '(' :: more) (element : ∀ more, cs ≠ '[' :: '[' :: more)
    (operator : ∀ op more, Sign.read? cs = some (.operator op, more) → G.binary op + 1 < strength)
    (arrow : ∀ outer more, Sign.read? cs = some (.arrow outer, more) → 0 < strength) :
    Settles (readOn G · strength e cs) (e, cs) := by
  refine .atOnce fun fuel => ?_
  unfold readOn
  dsimp only
  split
  · exact absurd rfl (args _)
  · exact absurd rfl (element _)
  · split
    · rename_i op more sign
      rw [if_neg (Nat.not_le_of_lt (operator op more sign))]
    · rename_i outer more sign
      rw [if_neg (Nat.ne_of_gt (arrow outer more sign))]
    · rfl

/-! Items. -/

theorem settles_items (all : Settles (readSome G · separator cs) (items, rest))
    (given : items ≠ [(none, empty)]) : Settles (readItems G · separator cs) (items, rest) :=
  all.step fun fuel all => by
    unfold readItems
    rw [all]
    split
    · rename_i same
      exact absurd (Prod.mk.inj same).1 given
    · rename_i same
      exact same.symm

theorem settles_no_items (all : Settles (readSome G · separator cs) ([(none, empty)], rest)) :
    Settles (readItems G · separator cs) ([], rest) :=
  all.step fun fuel all => by
    unfold readItems
    rw [all]

theorem settles_last (one : Settles (readItem G · cs) (item, rest))
    (ends : ∀ more, rest ≠ separator :: ' ' :: more) :
    Settles (readSome G · separator cs) ([item], rest) :=
  one.step fun fuel one => by
    unfold readSome
    rw [one]
    dsimp only
    split
    · rename_i c more _
      exact if_neg fun same : c = separator => ends more (same ▸ rfl)
    · rfl

theorem settles_more (one : Settles (readItem G · cs) (item, separator :: ' ' :: more))
    (others : Settles (readSome G · separator more) (items, rest)) :
    Settles (readSome G · separator cs) (item :: items, rest) :=
  one.steps others fun fuel one others => by
    unfold readSome
    rw [one]
    change (if separator = separator then (item :: (readSome G fuel separator more).1,
      (readSome G fuel separator more).2) else _) = _
    rw [if_pos rfl, others]

theorem settles_unnamed (one : Settles (read G · 0 cs) (e, rest)) (ends : ∀ more, rest ≠ " = ".toList ++ more) :
    Settles (readItem G · cs) ((none, e), rest) :=
  one.step fun fuel one => by
    unfold readItem
    rw [one]
    split
    · rename_i same
      exact absurd (Prod.mk.inj same).2 (ends _)
    · rename_i same
      cases same
      rfl

theorem settles_named {name : Name} (first : Settles (read G · 0 cs) (symbol name, " = ".toList ++ more))
    (value : Settles (read G · 0 more) (e, rest)) : Settles (readItem G · cs) ((some name, e), rest) :=
  first.steps value fun fuel first value => by
    unfold readItem
    rw [first]
    change ((some name, (read G fuel 0 more).1), (read G fuel 0 more).2) = _
    rw [value]

end Rules

end Outline
end CallByNeed
