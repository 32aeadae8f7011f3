import CallByNeed.Proofs.Reading

/-!
Code that can be read back from its text. Operands are written without parentheses, so each has to be such that it
ends where its operator goes on: not an operator that binds more weakly, nor anything that goes on as far as
possible.
-/
namespace CallByNeed

open Outline

/-! The text of code, in parts. -/

theorem Arg.outlines_eq (text : Value → String) (args : List Arg) :
    Arg.outlines text args = args.map fun a => (a.name, a.value.outline text) := by
  induction args with
  | nil => rfl
  | cons a rest ih =>
    obtain ⟨name, e⟩ := a
    rw [Arg.outlines, ih, List.map_cons]

theorem Expr.outlines_eq (text : Value → String) (body : List Expr) :
    Expr.outlines text body = body.map (·.outline text) := by
  induction body with
  | nil => rfl
  | cons e rest ih => rw [Expr.outlines, ih, List.map_cons]

/-- A formal as it is written in the way of an argument. -/
def Formal.written : Formal → Arg
  | ⟨name, none⟩ => ⟨none, .symbol ⟨0⟩ name⟩
  | ⟨name, some e⟩ => ⟨some name, e⟩

theorem Formal.outlines_eq (text : Value → String) (formals : List Formal) :
    Formal.outlines text formals = (Arg.outlines text (formals.map Formal.written)).map Outline.formal := by
  induction formals with
  | nil => rfl
  | cons f rest ih =>
    obtain ⟨name, default⟩ := f
    cases default <;> simp [Formal.outlines, Formal.written, Arg.outlines, Expr.outlineOption, Outline.formal, ih,
      Expr.outline]

theorem outline_function_written (text : Value → String) (node : NodeId) (formals : List Formal) (body : Expr) :
    (Expr.function ⟨node, formals, body⟩).outline text =
      .function ((Arg.outlines text (formals.map Formal.written)).map Outline.formal) (body.outline text) := by
  rw [← Formal.outlines_eq]
  rfl

theorem outline_block_items (text : Value → String) (id : NodeId) (body : List Expr) :
    (Expr.block id body).outline text =
      .block ((Arg.outlines text (body.map fun e => ⟨none, e⟩)).map (·.2)) := by
  rw [Arg.outlines_eq, List.map_map, List.map_map, Expr.outline, Expr.outlines_eq]
  rfl

namespace Store

variable (s : Store)

def itemText (a : Arg) : String := named a.name (s.exprText a.value)

/-- Items with a separator between them. -/
def itemsText (separator : String) (args : List Arg) : String := separator.intercalate (args.map s.itemText)

theorem argTexts_eq (args : List Arg) :
    Arg.textsWith s.dotsLength (s.vectorText s.depthBound) args =
      args.map fun a => (a.name, s.exprText a.value) := by
  induction args with
  | nil => rfl
  | cons a rest ih =>
    obtain ⟨name, e⟩ := a
    rw [Arg.textsWith, ih]
    rfl

theorem commaSeparated_eq (args : List Arg) :
    commaSeparated ((args.map fun a => (a.name, s.exprText a.value)).map fun a => named a.1 a.2) =
      s.itemsText ", " args := by
  rw [List.map_map]
  rfl

theorem exprText_call (id : NodeId) (f : Expr) (args : List Arg) :
    s.exprText (.call id f args) =
      callText f.symbol? (s.exprText f) (args.map fun a => (a.name, s.exprText a.value)) := by
  rw [← argTexts_eq]
  rfl

theorem exprText_function (f : Function) : s.exprText (.function f) =
    "function(" ++ s.itemsText ", " (f.formals.map Formal.written) ++ ") " ++ s.exprText f.body := by
  have texts (formals : List Formal) : Formal.textsWith s.dotsLength (s.vectorText s.depthBound) formals =
      (formals.map Formal.written).map s.itemText := by
    induction formals with
    | nil => rfl
    | cons f rest ih =>
      obtain ⟨name, default⟩ := f
      cases default <;> rw [Formal.textsWith, ih] <;> rfl
  obtain ⟨node, formals, body⟩ := f
  unfold itemsText
  rw [← texts]
  rfl

theorem exprText_block (id : NodeId) (body : List Expr) : s.exprText (.block id body) =
    "\x7b" ++ s.itemsText "; " (body.map fun e => ⟨none, e⟩) ++ "\x7d" := by
  have texts : Expr.textsWith s.dotsLength (s.vectorText s.depthBound) body =
      (body.map fun e => ⟨none, e⟩).map s.itemText := by
    induction body with
    | nil => rfl
    | cons e rest ih => rw [Expr.textsWith, ih]; rfl
  unfold itemsText
  rw [← texts]
  rfl

/-- A call that is written with its arguments in parentheses. -/
theorem exprText_listed {id : NodeId} {f : Expr} {args : List Arg}
    (listed : ∀ name, f.symbol? = some name → name ∉ ["-", "!", "[["] ++ binaryOperators) :
    s.exprText (.call id f args) = s.exprText f ++ "(" ++ s.itemsText ", " args ++ ")" := by
  rw [exprText_call, ← commaSeparated_eq]
  generalize args.map (fun a => (a.name, s.exprText a.value)) = args
  cases symbol : f.symbol? with
  | none => cases args <;> rfl
  | some name =>
    have other := listed name symbol
    simp only [List.cons_append, List.nil_append, List.mem_cons, not_or] at other
    obtain ⟨minus, negation, element, other⟩ := other
    have operator : binaryOperators.contains name = false := by simpa using other
    unfold callText
    split <;> simp_all

/-- Operands are written without their names. -/
theorem exprText_operator {id fid : NodeId} {op : Name} (known : op ∈ binaryOperators) (n m : Option Name)
    (l r : Expr) : s.exprText (.call id (.symbol fid op) [⟨n, l⟩, ⟨m, r⟩]) =
      s.exprText l ++ " " ++ op ++ " " ++ s.exprText r := by
  rw [exprText_call]
  exact if_pos (List.contains_iff_mem.mpr known)

theorem exprText_index (id fid : NodeId) (target : Expr) (args : List Arg) :
    s.exprText (.call id (.symbol fid "[[") (⟨none, target⟩ :: args)) =
      s.exprText target ++ "[[" ++ s.itemsText ", " args ++ "]]" := by
  rw [exprText_call, ← commaSeparated_eq]
  rcases args with - | ⟨a, - | ⟨b, rest⟩⟩ <;> rfl

/-- The letters of the text of code, and what follows them. -/
def letters (e : Expr) (rest : List Char) : List Char := (s.exprText e).toList ++ rest

section Letters

variable (rest : List Char)

theorem letters_listed {id : NodeId} {f : Expr} {args : List Arg}
    (listed : ∀ name, f.symbol? = some name → name ∉ ["-", "!", "[["] ++ binaryOperators) :
    s.letters (.call id f args) rest = s.letters f ('(' :: ((s.itemsText ", " args).toList ++ ')' :: rest)) := by
  unfold letters
  rw [s.exprText_listed listed]
  simp only [String.toList_append, List.append_assoc]
  rfl

theorem letters_index (id fid : NodeId) (target : Expr) (args : List Arg) :
    s.letters (.call id (.symbol fid "[[") (⟨none, target⟩ :: args)) rest =
      s.letters target ('[' :: '[' :: ((s.itemsText ", " args).toList ++ ']' :: ']' :: rest)) := by
  unfold letters
  rw [exprText_index]
  simp only [String.toList_append, List.append_assoc]
  rfl

theorem letters_operator {id fid : NodeId} {op : Name} (known : op ∈ binaryOperators) (l r : Expr) :
    s.letters (.call id (.symbol fid op) [⟨none, l⟩, ⟨none, r⟩]) rest =
      s.letters l (' ' :: (op.toList ++ ' ' :: s.letters r rest)) := by
  unfold letters
  rw [s.exprText_operator known]
  simp only [String.toList_append, List.append_assoc]
  rfl

theorem letters_minus (id fid : NodeId) (e : Expr) :
    s.letters (.call id (.symbol fid "-") [⟨none, e⟩]) rest = '-' :: s.letters e rest := by
  unfold letters
  rw [exprText_call]
  exact congrArg (· ++ rest) String.toList_append

theorem letters_not (id fid : NodeId) (e : Expr) :
    s.letters (.call id (.symbol fid "!") [⟨none, e⟩]) rest = '!' :: s.letters e rest := by
  unfold letters
  rw [exprText_call]
  exact congrArg (· ++ rest) String.toList_append

theorem letters_function (f : Function) : s.letters (.function f) rest = "function(".toList ++
    ((s.itemsText ", " (f.formals.map Formal.written)).toList ++ ')' :: ' ' :: s.letters f.body rest) := by
  unfold letters
  rw [exprText_function]
  simp only [String.toList_append, List.append_assoc]
  rfl

theorem letters_block (id : NodeId) (body : List Expr) : s.letters (.block id body) rest =
    '\x7b' :: ((s.itemsText "; " (body.map fun e => ⟨none, e⟩)).toList ++ '\x7d' :: rest) := by
  unfold letters
  rw [exprText_block]
  simp only [String.toList_append, List.append_assoc]
  rfl

theorem letters_branch (id : NodeId) (test yes : Expr) : s.letters (.branch id test yes none) rest =
    "if (".toList ++ s.letters test (')' :: ' ' :: s.letters yes rest) := by
  change ("if (" ++ s.exprText test ++ ") " ++ s.exprText yes ++ "").toList ++ rest = _
  simp only [letters, String.toList_append, List.append_assoc]
  rfl

theorem letters_choice (id : NodeId) (test yes no : Expr) : s.letters (.branch id test yes (some no)) rest =
    "if (".toList ++ s.letters test (')' :: ' ' :: s.letters yes (" else ".toList ++ s.letters no rest)) := by
  change ("if (" ++ s.exprText test ++ ") " ++ s.exprText yes ++ (" else " ++ s.exprText no)).toList ++ rest = _
  simp only [letters, String.toList_append, List.append_assoc]
  rfl

theorem letters_assign (id : NodeId) (target value : Expr) (outer : Bool) :
    s.letters (.assign id target value outer) rest =
      s.letters target ((if outer then " <<- " else " <- ").toList ++ s.letters value rest) := by
  change (s.exprText target ++ (if outer then " <<- " else " <- ") ++ s.exprText value).toList ++ rest = _
  simp only [letters, String.toList_append, List.append_assoc]

end Letters

end Store

/-! Code that can be read back. -/

/-- A name that is written as a word of its own. -/
structure IsFree (name : Name) : Prop where
  nonempty : name.toList ≠ []
  letters : ∀ c ∈ name.toList, isWord c = true
  unreserved : name.toList ≠ "if".toList ∧ name.toList ≠ "function".toList
  inconstant : isConstant name.toList = false

/-- A constant that is written as a word or between quotation marks. -/
inductive IsLiteral (text : String) : Prop
  | word (nonempty : text.toList ≠ []) (letters : ∀ c ∈ text.toList, isWord c = true)
    (constant : isConstant text.toList = true)
  | quoted (inner : List Char) (plain : '"' ∉ inner) (same : text.toList = '"' :: (inner ++ ['"']))

/-- What follows an expression in a text. -/
inductive Following where
  /-- The end, or a mark that ends it. -/
  | stop
  /-- Arguments, or an element. -/
  | bracket
  | operator (op : Name)
  | arrow
  | otherwise
  | equals

namespace Following

/-- An expression whose operators bind at least so strongly does not go on with it. -/
def Stops (G : Strengths) (strength : Nat) : Following → Prop
  | stop | otherwise | equals => True
  | bracket => False
  | operator op => G.binary op + 1 < strength
  | arrow => 0 < strength

/-- The text that follows begins that way. -/
inductive Begins : Following → List Char → Prop
  | nothing : Begins stop []
  | mark {c : Char} (rest : List Char) (ends : c ∈ [')', ']', '\x7d', ',', ';']) : Begins stop (c :: rest)
  | parenthesis (rest : List Char) : Begins bracket ('(' :: rest)
  | element (rest : List Char) : Begins bracket ('[' :: '[' :: rest)
  | operator {op : Name} (known : op ∈ binaryOperators) (rest : List Char) :
    Begins (operator op) (' ' :: (op.toList ++ ' ' :: rest))
  | arrow (outer : Bool) (rest : List Char) :
    Begins arrow ((if outer then " <<- " else " <- ").toList ++ rest)
  | otherwise (rest : List Char) : Begins otherwise (" else ".toList ++ rest)
  | equals (rest : List Char) : Begins equals (" = ".toList ++ rest)

variable {f : Following} {rest more : List Char} {G : Strengths} {strength : Nat} {e : Outline}

theorem read?_operator {op : Name} (known : op ∈ binaryOperators) (rest : List Char) :
    Sign.read? (' ' :: (op.toList ++ ' ' :: rest)) = some (.operator op, rest) := by
  simp only [binaryOperators, List.mem_cons, List.not_mem_nil, or_false] at known
  rcases known with rfl | rfl | rfl | rfl | rfl | rfl | rfl | rfl | rfl | rfl <;> rfl

theorem read?_arrow (outer : Bool) (rest : List Char) :
    Sign.read? ((if outer then " <<- " else " <- ").toList ++ rest) = some (.arrow outer, rest) := by
  cases outer <;> rfl

theorem Begins.stop_cases {c : Char} (ends : c ∈ [')', ']', '\x7d', ',', ';']) :
    c = ')' ∨ c = ']' ∨ c = '\x7d' ∨ c = ',' ∨ c = ';' := by
  simpa using ends

/-- What follows starts with a mark, and not with one that an expression starts with. -/
theorem Begins.head (begins : f.Begins rest) :
    rest.head?.all fun c => " )]\x7d,;([".toList.contains c := by
  cases begins with
  | nothing => rfl
  | mark rest ends => rcases stop_cases ends with rfl | rfl | rfl | rfl | rfl <;> rfl
  | arrow outer rest => cases outer <;> rfl
  | _ => rfl

theorem Begins.notWord (begins : f.Begins rest) : rest.head?.all (!isWord ·) := by
  cases begins with
  | nothing => rfl
  | mark rest ends => rcases stop_cases ends with rfl | rfl | rfl | rfl | rfl <;> rfl
  | arrow outer rest => cases outer <;> rfl
  | _ => rfl

theorem Begins.settles (begins : f.Begins rest) (stops : f.Stops G strength) :
    Settles (readOn G · strength e rest) (e, rest) := by
  have signless {cs : List Char} (none : Sign.read? cs = none) {P : Prop} (sign : Sign) (more : List Char)
      (found : Sign.read? cs = some (sign, more)) : P := by
    rw [none] at found
    cases found
  cases begins with
  | nothing => exact settles_stop nofun nofun (fun _ => signless rfl _) fun _ => signless rfl _
  | mark rest ends =>
    rcases stop_cases ends with rfl | rfl | rfl | rfl | rfl <;>
      exact settles_stop nofun nofun (fun _ => signless rfl _) fun _ => signless rfl _
  | parenthesis | element => exact stops.elim
  | operator known rest =>
    have sign := read?_operator known rest
    refine settles_stop nofun nofun (fun op more found => ?_) fun outer more found => ?_
    · rw [sign] at found
      cases found
      exact stops
    · rw [sign] at found
      cases found
  | arrow outer rest =>
    have sign := read?_arrow outer rest
    refine settles_stop ?_ ?_ (fun op more found => ?_) fun _ _ _ => stops
    · cases outer <;> nofun
    · cases outer <;> nofun
    · rw [sign] at found
      cases found
  | otherwise | equals => exact settles_stop nofun nofun (fun _ => signless rfl _) fun _ => signless rfl _

theorem Begins.not_else (begins : f.Begins rest) (other : f ≠ .otherwise) : rest ≠ " else ".toList ++ more := by
  intro same
  cases begins with
  | nothing => cases same
  | mark rest ends => rcases stop_cases ends with rfl | rfl | rfl | rfl | rfl <;> cases same
  | parenthesis | element | equals => cases same
  | @operator op known rest =>
    have begin : op.toList.head? = some 'e' := by
      have tail := congrArg List.head? (List.cons.inj same).2
      cases letters : op.toList with
      | nil => rw [letters] at tail; cases tail
      | cons c cs => rw [letters] at tail; exact tail
    simp only [binaryOperators, List.mem_cons, List.not_mem_nil, or_false] at known
    rcases known with rfl | rfl | rfl | rfl | rfl | rfl | rfl | rfl | rfl | rfl <;> cases begin
  | arrow outer rest => cases outer <;> cases same
  | otherwise => exact other rfl

end Following

/-- Code that can be read back where operators have to bind so strongly, and where it is followed so. -/
inductive Readable (G : Strengths) (s : Store) : Nat → Following → Expr → Prop
  | constant {strength : Nat} {f : Following} (id : NodeId) {v : Value} (literal : IsLiteral (s.valueText v)) :
    Readable G s strength f (.constant id v)
  | symbol {strength : Nat} {f : Following} (id : NodeId) {name : Name} (free : IsFree name) :
    Readable G s strength f (.symbol id name)
  | empty {strength : Nat} {f : Following} (id : NodeId) : Readable G s strength f (.empty id)
  | call {strength : Nat} {f : Following} (id : NodeId) {function : Expr} {args : List Arg}
    (called : Readable G s strength .bracket function) (values : ∀ a ∈ args, Readable G s 0 .stop a.value)
    (names : ∀ a ∈ args, ∀ name, a.name = some name → IsFree name)
    (given : ∀ node, args ≠ [⟨none, .empty node⟩]) : Readable G s strength f (.call id function args)
  | index {strength : Nat} {f : Following} (id fid : NodeId) {target : Expr} {args : List Arg}
    (indexed : Readable G s strength .bracket target) (values : ∀ a ∈ args, Readable G s 0 .stop a.value)
    (names : ∀ a ∈ args, ∀ name, a.name = some name → IsFree name)
    (given : ∀ node, args ≠ [⟨none, .empty node⟩]) :
    Readable G s strength f (.call id (.symbol fid "[[") (⟨none, target⟩ :: args))
  | operator {strength : Nat} {f : Following} (id fid : NodeId) {op : Name} {l r : Expr}
    (known : op ∈ binaryOperators) (enough : strength ≤ G.binary op + 1)
    (left : Readable G s strength (.operator op) l) (right : Readable G s (G.binary op + 2) f r)
    (stops : f.Stops G (G.binary op + 2)) :
    Readable G s strength f (.call id (.symbol fid op) [⟨none, l⟩, ⟨none, r⟩])
  | minus {strength : Nat} {f : Following} (id fid : NodeId) {e : Expr}
    (operand : Readable G s (G.unary "-") f e) (stops : f.Stops G (G.unary "-")) :
    Readable G s strength f (.call id (.symbol fid "-") [⟨none, e⟩])
  | negation {strength : Nat} {f : Following} (id fid : NodeId) {e : Expr}
    (operand : Readable G s (G.unary "!") f e) (stops : f.Stops G (G.unary "!")) :
    Readable G s strength f (.call id (.symbol fid "!") [⟨none, e⟩])
  | function {strength : Nat} {f : Following} (node : NodeId) {formals : List Formal} {body : Expr}
    (names : ∀ formal ∈ formals, IsFree formal.name)
    (defaults : ∀ formal ∈ formals, ∀ e, formal.default = some e → Readable G s 0 .stop e)
    (inside : Readable G s 0 f body) (stops : f.Stops G 0) :
    Readable G s strength f (.function ⟨node, formals, body⟩)
  | block {strength : Nat} {f : Following} (id : NodeId) {body : List Expr}
    (parts : ∀ e ∈ body, Readable G s 0 .stop e) (given : ∀ node, body ≠ [.empty node]) :
    Readable G s strength f (.block id body)
  | branch {strength : Nat} {f : Following} (id : NodeId) {test yes : Expr}
    (condition : Readable G s 0 .stop test) (chosen : Readable G s 0 f yes) (stops : f.Stops G 0)
    (alone : f ≠ .otherwise) : Readable G s strength f (.branch id test yes none)
  | choice {strength : Nat} {f : Following} (id : NodeId) {test yes no : Expr}
    (condition : Readable G s 0 .stop test) (chosen : Readable G s 0 .otherwise yes)
    (other : Readable G s 0 f no) (stops : f.Stops G 0) :
    Readable G s strength f (.branch id test yes (some no))
  | assign {f : Following} (id : NodeId) {target value : Expr} (outer : Bool)
    (assigned : Readable G s 0 .arrow target) (source : Readable G s 0 f value) (stops : f.Stops G 0) :
    Readable G s 0 f (.assign id target value outer)

/-- A word of its own is no operator. -/
theorem IsFree.listed {name : Name} (free : IsFree name) : name ∉ ["-", "!", "[["] ++ binaryOperators := by
  intro member
  have marked : ∃ c ∈ name.toList, isWord c = false := by
    simp only [binaryOperators, List.cons_append, List.nil_append, List.mem_cons, List.not_mem_nil,
      or_false] at member
    rcases member with rfl | rfl | rfl | rfl | rfl | rfl | rfl | rfl | rfl | rfl | rfl | rfl | rfl <;>
      exact ⟨_, List.mem_cons_self, rfl⟩
  obtain ⟨c, inside, mark⟩ := marked
  rw [free.letters c inside] at mark
  cases mark

variable {G : Strengths} {s : Store}

theorem Readable.listed {strength : Nat} {f : Following} {e : Expr} (readable : Readable G s strength f e)
    (name : Name) (symbol : e.symbol? = some name) : name ∉ ["-", "!", "[["] ++ binaryOperators := by
  cases readable with
  | symbol id free =>
    cases symbol
    exact free.listed
  | _ => cases symbol

theorem settles_name {name : Name} {rest : List Char} (free : IsFree name)
    (ends : rest.head?.all (!isWord ·)) :
    Settles (readFirst G · (name.toList ++ rest)) (.symbol name, rest) := by
  have read := settles_word (G := G) free.nonempty free.letters free.unreserved ends
  unfold ofWord at read
  rwa [free.inconstant, if_neg Bool.false_ne_true, String.ofList_toList] at read

theorem settles_literal {v : Value} {rest : List Char} (literal : IsLiteral (s.valueText v))
    (ends : rest.head?.all (!isWord ·)) :
    Settles (readFirst G · ((s.valueText v).toList ++ rest)) (.constant (s.valueText v), rest) := by
  cases literal with
  | word nonempty letters constant =>
    have free : (s.valueText v).toList ≠ "if".toList ∧ (s.valueText v).toList ≠ "function".toList := by
      constructor <;> intro same <;> rw [same] at constant <;> cases constant
    have read := settles_word (G := G) nonempty letters free ends
    unfold ofWord at read
    rwa [if_pos constant, String.ofList_toList] at read
  | quoted inner plain same =>
    have read : Settles (readFirst G · ('"' :: (inner ++ '"' :: rest))) _ := settles_quoted plain
    rw [← same, String.ofList_toList] at read
    rw [same]
    exact List.append_assoc ('"' :: inner) ['"'] rest ▸ read

section Items

/-- That the values of arguments are read back, wherever a mark ends them. -/
def ReadsBack (G : Strengths) (s : Store) (args : List Arg) : Prop :=
  ∀ a ∈ args, ∀ rest, Following.stop.Begins rest →
    Settles (read G · 0 (s.letters a.value rest)) (a.value.outline s.valueText, rest)

variable {args : List Arg} {rest : List Char}

theorem settles_item {a : Arg} (value : ReadsBack G s [a]) (free : ∀ name, a.name = some name → IsFree name)
    (begins : Following.stop.Begins rest) :
    Settles (readItem G · ((s.itemText a).toList ++ rest)) ((a.name, a.value.outline s.valueText), rest) := by
  have read := value a List.mem_cons_self rest begins
  obtain ⟨name, e⟩ := a
  cases name with
  | none =>
    refine settles_unnamed read fun more same => ?_
    subst same
    cases begins with
    | mark _ ends =>
      change ' ' ∈ _ at ends
      simp at ends
  | some name =>
    have free := free name rfl
    have text : (s.itemText ⟨some name, e⟩).toList ++ rest =
        name.toList ++ (" = ".toList ++ s.letters e rest) := by
      unfold Store.itemText Store.letters named
      simp only [String.toList_append, List.append_assoc]
    have begins := Following.Begins.equals (s.letters e rest)
    rw [text]
    exact settles_named (settles_read (settles_name free begins.notWord) (begins.settles trivial)) read

variable {separator c : Char} (mark : separator ∈ [')', ']', '\x7d', ',', ';'])
  (ends : c ∈ [')', ']', '\x7d', ',', ';']) (apart : c ≠ separator)
include mark ends apart

theorem settles_all (nonempty : args ≠ []) (values : ReadsBack G s args)
    (names : ∀ a ∈ args, ∀ name, a.name = some name → IsFree name) :
    Settles (readSome G · separator
      ([separator, ' '].intercalate (args.map fun a => (s.itemText a).toList) ++ c :: rest))
      (Arg.outlines s.valueText args, c :: rest) := by
  induction args with
  | nil => exact absurd rfl nonempty
  | cons a others ih =>
    have own : ReadsBack G s [a] := fun b member => values b (List.mem_singleton.mp member ▸ List.mem_cons_self)
    have free := names a List.mem_cons_self
    cases others with
    | nil =>
      have item := settles_item own free (.mark rest ends)
      rw [List.map_singleton, List.intercalate_singleton, Arg.outlines_eq]
      exact settles_last item fun more same => apart (List.cons.inj same).1
    | cons b others =>
      have later := ih (List.cons_ne_nil _ _) (fun b member => values b (List.mem_cons_of_mem _ member))
        fun b member => names b (List.mem_cons_of_mem _ member)
      rw [List.map_cons, List.map_cons, List.intercalate_cons_cons, List.append_assoc, List.append_assoc,
        Arg.outlines_eq, List.map_cons, ← Arg.outlines_eq]
      exact settles_more (settles_item own free (.mark _ mark)) later

/-- Arguments are read back, if they are not a single one that is left out. -/
theorem settles_args {text : String} (written : text.toList = [separator, ' ']) (values : ReadsBack G s args)
    (names : ∀ a ∈ args, ∀ name, a.name = some name → IsFree name)
    (given : ∀ node, args ≠ [⟨none, .empty node⟩]) :
    Settles (readItems G · separator ((s.itemsText text args).toList ++ c :: rest))
      (Arg.outlines s.valueText args, c :: rest) := by
  unfold Store.itemsText
  rw [String.toList_intercalate, written, List.map_map]
  cases args with
  | nil =>
    have begins : Following.stop.Begins (c :: rest) := .mark rest ends
    have nothing : Settles (read G · 0 (c :: rest)) (.empty, c :: rest) :=
      settles_read (settles_empty begins.head) (begins.settles trivial)
    refine settles_no_items (settles_last (settles_unnamed nothing fun more same => ?_) fun more same =>
      apart (List.cons.inj same).1)
    rcases Following.Begins.stop_cases ends with rfl | rfl | rfl | rfl | rfl <;> cases same
  | cons a others =>
    refine settles_items (settles_all mark ends apart (List.cons_ne_nil _ _) values names) fun single => ?_
    obtain ⟨name, e⟩ := a
    obtain ⟨first, none_left⟩ := List.cons.inj single
    obtain ⟨rfl, empty⟩ := Prod.mk.inj first
    cases e with
    | empty node =>
      rw [Arg.outlines_eq, List.map_eq_nil_iff] at none_left
      exact given node (none_left ▸ rfl)
    | function f =>
      obtain ⟨node, formals, body⟩ := f
      cases empty
    | _ => cases empty

end Items

/-- Code that can be read back is read back as far as it goes, and then what goes on from it. -/
theorem Readable.settles {strength : Nat} {f : Following} {e : Expr} (readable : Readable G s strength f e)
    {rest : List Char} (begins : f.Begins rest) {last : Outline × List Char}
    (on : Settles (readOn G · strength (e.outline s.valueText) rest) last) :
    Settles (read G · strength (s.letters e rest)) last := by
  -- By induction on how the code is read: where a part comes first, what goes on from it is what follows in `on`.
  induction readable generalizing rest last with
  | constant id literal => exact settles_read (settles_literal literal begins.notWord) on
  | symbol id free => exact settles_read (settles_name free begins.notWord) on
  | empty id => exact settles_read (settles_empty begins.head) on
  | call id called values names given ihCalled ihValues =>
    rw [s.letters_listed _ called.listed]
    exact ihCalled (.parenthesis _) (settles_call (settles_args (by decide) (by decide) (by decide) rfl
      (fun a member rest begins => ihValues a member begins (begins.settles trivial)) names given) on)
  | index id fid indexed values names given ihIndexed ihValues =>
    rw [s.letters_index]
    exact ihIndexed (.element _) (settles_index (settles_args (by decide) (by decide) (by decide) rfl
      (fun a member rest begins => ihValues a member begins (begins.settles trivial)) names given) on)
  | operator id fid known enough left right stops ihLeft ihRight =>
    rw [s.letters_operator _ known]
    exact ihLeft (.operator known _) (settles_operator (Following.read?_operator known _) enough
      (ihRight begins (begins.settles stops)) on)
  | minus id fid operand stops ihOperand =>
    rw [s.letters_minus]
    exact settles_read (settles_minus (ihOperand begins (begins.settles stops))) on
  | negation id fid operand stops ihOperand =>
    rw [s.letters_not]
    exact settles_read (settles_not (ihOperand begins (begins.settles stops))) on
  | @function strength f node formals body names defaults inside stops ihDefaults ihInside =>
    rw [outline_function_written] at on
    rw [s.letters_function]
    refine settles_read (settles_function (settles_args (by decide) (by decide) (by decide) rfl ?_ ?_ ?_)
      (ihInside begins (begins.settles stops))) on
    · intro a member rest begins
      obtain ⟨⟨name, default⟩, formal, rfl⟩ := List.mem_map.mp member
      cases default with
      | none => exact settles_read (settles_name (names _ formal) begins.notWord) (begins.settles trivial)
      | some e => exact ihDefaults _ formal e rfl begins (begins.settles trivial)
    · intro a member name named
      obtain ⟨⟨own, default⟩, formal, rfl⟩ := List.mem_map.mp member
      cases default with
      | none => cases named
      | some e =>
        cases named
        exact names _ formal
    · intro node single
      obtain ⟨⟨name, default⟩, -, same⟩ := List.mem_map.mp (single ▸ List.mem_cons_self)
      cases default <;> cases same
  | @block strength f id body parts given ihParts =>
    rw [outline_block_items] at on
    rw [s.letters_block]
    refine settles_read (settles_block (settles_args (by decide) (by decide) (by decide) rfl ?_ ?_ ?_)) on
    · intro a member rest begins
      obtain ⟨e, part, rfl⟩ := List.mem_map.mp member
      exact ihParts e part begins (begins.settles trivial)
    · intro a member name named
      obtain ⟨e, -, rfl⟩ := List.mem_map.mp member
      cases named
    · intro node single
      obtain ⟨e, rfl, same⟩ := List.map_eq_singleton_iff.mp single
      cases same
      exact given node rfl
  | branch id condition chosen stops alone ihCondition ihChosen =>
    rw [s.letters_branch]
    exact settles_read (settles_branch (ihCondition (.mark _ (by decide)) (Following.Begins.settles
      (.mark _ (by decide)) trivial)) (ihChosen begins (begins.settles stops))
      (settles_without_else fun _ => begins.not_else alone)) on
  | choice id condition chosen other stops ihCondition ihChosen ihOther =>
    rw [s.letters_choice]
    exact settles_read (settles_branch (ihCondition (.mark _ (by decide)) (Following.Begins.settles
      (.mark _ (by decide)) trivial)) (ihChosen (.otherwise _) (Following.Begins.settles (.otherwise _) trivial))
      (settles_else (ihOther begins (begins.settles stops)))) on
  | assign id outer assigned source stops ihAssigned ihSource =>
    rw [s.letters_assign]
    exact ihAssigned (.arrow outer _) (settles_arrow (Following.read?_arrow outer _)
      (ihSource begins (begins.settles stops)) on)

end CallByNeed
