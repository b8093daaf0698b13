import Mathlib.Data.List.Forall2
import ScriptSsa.Graph.Listing

/-!
A listing tells its graph.

The text of a graph has no counts and no closing marks, so each of its parts has to be told from what comes behind it.
`Legible follows print good alike` says that this can be done where `follows` holds of what comes behind, and that the
part is then known up to `alike`. A word ends at the first mark, a quoted text at the first quote that is not escaped,
and a list where its separator does not come again. Put together along the layout of a listing, these give the blocks
and instructions back, except for what is not printed: the ids of bound instructions, and the kind of an operand where
two kinds print alike. Of the numbers and strings among the operands no more is used than that numbers have no marks
in them and strings are quoted.
-/

namespace ScriptSsa

open Text

/-! Parts of a text. -/

/-- Nothing, or text that begins with one of the marks. -/
def Begins (marks rest : List Char) : Prop := ∀ c ∈ rest.head?, c ∈ marks

section Begins

variable {marks rest rest' a b : List Char}

theorem begins_nil : Begins marks [] := fun _ hc => by simp at hc

theorem begins_cons {c : Char} : Begins marks (c :: rest) ↔ c ∈ marks := by simp [Begins]

theorem Begins.mono {marks' : List Char} (h : Begins marks rest) (hsub : marks ⊆ marks') : Begins marks' rest :=
  fun c hc => hsub (h c hc)

/-- A word without marks ends where a mark begins. -/
theorem append_inj_of_begins (ha : ∀ c ∈ a, c ∉ marks) (hb : ∀ c ∈ b, c ∉ marks) (hrest : Begins marks rest)
    (hrest' : Begins marks rest') (h : a ++ rest = b ++ rest') : a = b ∧ rest = rest' := by
  induction a generalizing b with
  | nil =>
      cases b with
      | nil => exact ⟨rfl, h⟩
      | cons d b =>
          rw [List.nil_append] at h
          rw [h, List.cons_append, begins_cons] at hrest
          exact absurd hrest (hb d List.mem_cons_self)
  | cons c a ih =>
      cases b with
      | nil =>
          rw [List.nil_append] at h
          rw [← h, List.cons_append, begins_cons] at hrest'
          exact absurd hrest' (ha c List.mem_cons_self)
      | cons d b =>
          obtain ⟨rfl, htail⟩ := List.cons.inj h
          obtain ⟨rfl, hend⟩ := ih (fun x hx => ha x (List.mem_cons_of_mem _ hx))
            (fun x hx => hb x (List.mem_cons_of_mem _ hx)) htail
          exact ⟨rfl, hend⟩

end Begins

/-- What is printed can be told from what follows it, and read back up to `alike`. -/
def Legible {α : Type} (follows : List Char → Prop) (print : α → List Char) (good : α → Prop)
    (alike : α → α → Prop) : Prop :=
  ∀ a b rest rest', good a → good b → follows rest → follows rest' → print a ++ rest = print b ++ rest' →
    alike a b ∧ rest = rest'

namespace Legible

variable {α : Type} {follows follows' : List Char → Prop} {print print' : α → List Char} {good : α → Prop}
  {alike alike' : α → α → Prop} {marks mark : List Char}

/-- Words are told apart by the marks between them. -/
theorem word (hword : ∀ a, good a → ∀ c ∈ print a, c ∉ marks)
    (halike : ∀ a b, good a → good b → print a = print b → alike a b) : Legible (Begins marks) print good alike := by
  intro a b rest rest' ha hb hrest hrest' h
  obtain ⟨hprint, hend⟩ := append_inj_of_begins (hword a ha) (hword b hb) hrest hrest' h
  exact ⟨halike a b ha hb hprint, hend⟩

/-- A part that always prints the same. -/
theorem fixed (text : List Char) : Legible (fun _ => True) (fun _ : α => text) good fun _ _ => True :=
  fun _ _ _ _ _ _ _ _ h => ⟨trivial, List.append_cancel_left h⟩

/-- One part after another. The second one has to be such that the first can be told from it. -/
theorem append (h : Legible follows print good alike) (h' : Legible follows' print' good alike')
    (hnext : ∀ a rest, good a → follows' rest → follows (print' a ++ rest)) :
    Legible follows' (fun a => print a ++ print' a) good fun a b => alike a b ∧ alike' a b := by
  intro a b rest rest' ha hb hrest hrest' heq
  rw [List.append_assoc, List.append_assoc] at heq
  obtain ⟨halike, heq⟩ := h a b _ _ ha hb (hnext a rest ha hrest) (hnext b rest' hb hrest') heq
  obtain ⟨halike', hend⟩ := h' a b rest rest' ha hb hrest hrest' heq
  exact ⟨⟨halike, halike'⟩, hend⟩

/-- A part of something larger. -/
theorem on {β : Type} (h : Legible follows print good alike) (part : β → α) (good' : β → Prop)
    (hgood : ∀ b, good' b → good (part b)) :
    Legible follows (fun b => print (part b)) good' fun b c => alike (part b) (part c) :=
  fun b c rest rest' hb hc => h (part b) (part c) rest rest' (hgood b hb) (hgood c hc)

end Legible

/-- Items that each stand behind a mark. -/
def marked {α : Type} (mark : List Char) (print : α → List Char) (as : List α) : List Char :=
  as.flatMap fun a => mark ++ print a

section Marked

variable {α : Type} {follows : List Char → Prop} {print : α → List Char} {good : α → Prop} {alike : α → α → Prop}
  {mark : List Char}

theorem marked_cons (a : α) (as : List α) (rest : List Char) :
    marked mark print (a :: as) ++ rest = mark ++ (print a ++ (marked mark print as ++ rest)) := by
  simp only [marked, List.flatMap_cons, List.append_assoc]

theorem follows_marked (hmark : ∀ a rest, follows (mark ++ (print a ++ rest))) (as : List α) {rest : List Char}
    (hrest : follows rest) : follows (marked mark print as ++ rest) := by
  cases as with
  | nil => exact hrest
  | cons a as =>
      rw [marked_cons]
      exact hmark a _

/-- A list of marked items ends where the mark does not come again. -/
theorem Legible.each (h : Legible follows print good alike) (hmark : ∀ a rest, follows (mark ++ (print a ++ rest))) :
    Legible (fun rest => follows rest ∧ ¬ mark <+: rest) (marked mark print) (fun as => ∀ a ∈ as, good a)
      (List.Forall₂ alike) := by
  intro as
  induction as with
  | nil =>
      rintro (_ | ⟨b, bs⟩) rest rest' _ _ ⟨_, hend⟩ _ heq
      · exact ⟨.nil, heq⟩
      · rw [marked_cons] at heq
        exact absurd ⟨_, heq.symm⟩ hend
  | cons a as ih =>
      rintro (_ | ⟨b, bs⟩) rest rest' has hbs hrest hrest' heq
      · rw [marked_cons] at heq
        exact absurd ⟨_, heq⟩ hrest'.2
      · obtain ⟨ha, has⟩ := List.forall_mem_cons.mp has
        obtain ⟨hb, hbs⟩ := List.forall_mem_cons.mp hbs
        rw [marked_cons, marked_cons] at heq
        obtain ⟨halike, heq⟩ := h a b _ _ ha hb (follows_marked hmark as hrest.1) (follows_marked hmark bs hrest'.1)
          (List.append_cancel_left heq)
        obtain ⟨htail, hend⟩ := ih bs rest rest' has hbs hrest hrest' heq
        exact ⟨.cons halike htail, hend⟩

end Marked

theorem toList_intercalate_cons {α : Type} (separator : String) (print : α → String) (first : String) (as : List α) :
    (separator.intercalate (first :: as.map print)).toList =
      first.toList ++ marked separator.toList (fun a => (print a).toList) as := by
  induction as generalizing first with
  | nil => simp [marked]
  | cons a as ih =>
      rw [List.map_cons, String.intercalate_cons_cons, String.toList_append, String.toList_append, ih]
      simp only [marked, List.flatMap_cons, List.append_assoc]

/-- A list that is divided by commas, up to the end of its line. -/
theorem Legible.list {α : Type} {print : α → String} {good : α → Prop} {alike : α → α → Prop} {tail : List Char}
    (h : Legible (Begins [',', '\n']) (fun a => (print a).toList) good alike) (opening : String)
    (hopening : opening.toList = ' ' :: tail) :
    Legible (Begins ['\n']) (fun as => (listText opening (as.map print)).toList) (fun as => ∀ a ∈ as, good a)
      (List.Forall₂ alike) := by
  have hlist : ∀ a as rest, (listText opening ((a :: as).map print)).toList ++ rest =
      ' ' :: (tail ++ ((print a).toList ++ (marked ", ".toList (fun a => (print a).toList) as ++ rest))) := by
    intro a as rest
    rw [List.map_cons, listText, List.isEmpty_cons, if_neg Bool.false_ne_true, String.toList_append, hopening,
      toList_intercalate_cons]
    simp only [List.cons_append, List.append_assoc]
  have hcomma : ∀ a rest, Begins [',', '\n'] (", ".toList ++ ((print a).toList ++ rest)) :=
    fun _ _ => begins_cons.mpr List.mem_cons_self
  have hline : ∀ rest, Begins ['\n'] rest → Begins [',', '\n'] rest ∧ ¬ ", ".toList <+: rest := by
    intro rest hrest
    refine ⟨hrest.mono (List.subset_cons_self _ _), ?_⟩
    rintro ⟨rest, rfl⟩
    exact absurd (begins_cons.mp hrest) (by decide)
  have hblank : ∀ rest, ¬ Begins ['\n'] (' ' :: rest) := by
    intro rest hrest
    exact absurd (begins_cons.mp hrest) (by decide)
  rintro (_ | ⟨a, as⟩) (_ | ⟨b, bs⟩) rest rest' has hbs hrest hrest' heq
  · exact ⟨.nil, heq⟩
  · have hrest : rest = ' ' :: _ := heq.trans (hlist b bs rest')
    subst hrest
    exact absurd ‹Begins _ _› (hblank _)
  · have hrest : rest' = ' ' :: _ := heq.symm.trans (hlist a as rest)
    subst hrest
    exact absurd ‹Begins _ _› (hblank _)
  · obtain ⟨ha, has⟩ := List.forall_mem_cons.mp has
    obtain ⟨hb, hbs⟩ := List.forall_mem_cons.mp hbs
    have heq := (hlist a as rest).symm.trans (heq.trans (hlist b bs rest'))
    obtain ⟨halike, heq⟩ := h a b _ _ ha hb (follows_marked hcomma as (hline rest hrest).1)
      (follows_marked hcomma bs (hline rest' hrest').1) (List.append_cancel_left (List.cons.inj heq).2)
    obtain ⟨htail, hend⟩ := h.each hcomma as bs rest rest' has hbs (hline rest hrest) (hline rest' hrest') heq
    exact ⟨.cons halike htail, hend⟩

/-! Quoted text. -/

/-- How a character is written between quotes: as itself, or behind a backslash by one letter or by `u` and four
digits. -/
inductive QuotedChar : List Char → Prop where
  | plain {c : Char} (hquote : c ≠ '"') (hslash : c ≠ '\\') : QuotedChar [c]
  | letter {c : Char} (hcode : c ≠ 'u') : QuotedChar ['\\', c]
  | code (a b c d : Char) : QuotedChar ['\\', 'u', a, b, c, d]

/-- Characters between two quotes. -/
def IsQuoted (text : List Char) : Prop :=
  ∃ body : List (List Char), (∀ u ∈ body, QuotedChar u) ∧ text = '"' :: (body.flatten ++ ['"'])

/-- How long a quoted character is shows in its first two characters. -/
theorem QuotedChar.append_inj {u v a b : List Char} (hu : QuotedChar u) (hv : QuotedChar v) (h : u ++ a = v ++ b) :
    u = v ∧ a = b := by
  cases hu <;> cases hv <;> simp only [List.cons_append, List.nil_append, List.cons.injEq] at h ⊢ <;> grind

theorem QuotedChar.ne_quote {u a b : List Char} (hu : QuotedChar u) : u ++ a ≠ '"' :: b := by
  cases hu <;> simp_all

/-- The quote that closes a text is the first one that is not part of an escape. -/
theorem flatten_quotedChar_inj {us vs : List (List Char)} {rest rest' : List Char} (hus : ∀ u ∈ us, QuotedChar u)
    (hvs : ∀ v ∈ vs, QuotedChar v) (h : us.flatten ++ '"' :: rest = vs.flatten ++ '"' :: rest') :
    us = vs ∧ rest = rest' := by
  induction us generalizing vs with
  | nil =>
      cases vs with
      | nil => exact ⟨rfl, (List.cons.inj h).2⟩
      | cons v vs =>
          rw [List.flatten_cons, List.append_assoc] at h
          exact absurd h.symm (hvs v List.mem_cons_self).ne_quote
  | cons u us ih =>
      obtain ⟨hu, hus⟩ := List.forall_mem_cons.mp hus
      cases vs with
      | nil =>
          rw [List.flatten_cons, List.append_assoc] at h
          exact absurd h hu.ne_quote
      | cons v vs =>
          obtain ⟨hv, hvs'⟩ := List.forall_mem_cons.mp hvs
          rw [List.flatten_cons, List.flatten_cons, List.append_assoc, List.append_assoc] at h
          obtain ⟨rfl, htail⟩ := hu.append_inj hv h
          obtain ⟨rfl, hend⟩ := ih hus hvs' htail
          exact ⟨rfl, hend⟩

theorem IsQuoted.append_inj {a b rest rest' : List Char} (ha : IsQuoted a) (hb : IsQuoted b)
    (h : a ++ rest = b ++ rest') : a = b ∧ rest = rest' := by
  obtain ⟨us, hus, rfl⟩ := ha
  obtain ⟨vs, hvs, rfl⟩ := hb
  simp only [List.cons_append, List.append_assoc, List.nil_append] at h
  obtain ⟨rfl, hend⟩ := flatten_quotedChar_inj hus hvs (List.cons.inj h).2
  exact ⟨rfl, hend⟩

theorem quotedChar_escape (c : Char) : QuotedChar (escape c) := by
  unfold escape
  split
  case h_8 hquote hslash _ _ _ _ _ =>
    split
    · exact .code _ _ _ _
    · exact .plain hquote hslash
  all_goals exact .letter (by decide)

theorem isQuoted_quotedChars (cs : List Char) : IsQuoted (quotedChars cs) := by
  refine ⟨cs.map escape, List.forall_mem_map.mpr fun c _ => quotedChar_escape c, ?_⟩
  rw [quotedChars, List.flatMap_def, List.cons_append]

/-! Numbers. -/

/-- The characters that numbers are written with. -/
def isNumeralChar (c : Char) : Bool := c.isAlphanum || c == '.' || c == '+' || c == '-'

theorem isNumeralChar_of_isDigit {c : Char} (h : c.isDigit = true) : isNumeralChar c = true := by
  simp [isNumeralChar, Char.isAlphanum, h]

theorem isNumeralChar_of_mem_toDigits {n : Nat} {c : Char} (h : c ∈ Nat.toDigits 10 n) : isNumeralChar c = true :=
  isNumeralChar_of_isDigit (Nat.isDigit_of_mem_toDigits (by decide) (by decide) h)

theorem Decimal.isNumeralChar_of_mem_positional {d : Decimal} {c : Char} (h : c ∈ d.positional) :
    isNumeralChar c = true := by
  have hzero : ∀ {n : Nat}, c ∈ List.replicate n '0' → isNumeralChar c = true := by
    intro n hc
    rw [List.eq_of_mem_replicate hc]
    decide
  unfold positional at h
  dsimp only at h
  split at h
  · rcases List.mem_append.mp h with h | h
    · exact isNumeralChar_of_mem_toDigits h
    · exact hzero h
  · split at h
    · rcases List.mem_append.mp h with h | h
      · exact isNumeralChar_of_mem_toDigits (List.mem_of_mem_take h)
      · rcases List.mem_cons.mp h with rfl | h
        · decide
        · exact isNumeralChar_of_mem_toDigits (List.mem_of_mem_drop h)
    · rcases List.mem_append.mp h with h | h
      · rcases List.mem_cons.mp h with rfl | h
        · decide
        · rcases List.mem_cons.mp h with rfl | h
          · decide
          · exact hzero h
      · exact isNumeralChar_of_mem_toDigits h

theorem Decimal.isNumeralChar_of_mem_scientific {d : Decimal} {c : Char} (h : c ∈ d.scientific) :
    isNumeralChar c = true := by
  unfold scientific at h
  dsimp only at h
  rcases List.mem_append.mp h with h | h
  · rcases List.mem_append.mp h with h | h
    · exact isNumeralChar_of_mem_toDigits (List.mem_of_mem_take h)
    · split at h
      · cases h
      · rcases List.mem_cons.mp h with rfl | h
        · decide
        · exact isNumeralChar_of_mem_toDigits (List.mem_of_mem_drop h)
  · rcases List.mem_cons.mp h with rfl | h
    · decide
    · rcases List.mem_cons.mp h with rfl | h
      · split <;> decide
      · exact isNumeralChar_of_mem_toDigits h

theorem Binary64.isNumeralChar_of_mem {x : Binary64} {c : Char} (h : c ∈ x.text.toList) : isNumeralChar c = true := by
  unfold Binary64.text at h
  split at h
  · exact List.all_eq_true.mp (by decide) c h
  · split at h
    · split at h <;> exact List.all_eq_true.mp (by decide) c h
    · split at h
      · exact List.all_eq_true.mp (by decide) c h
      · rw [String.toList_ofList] at h
        rcases List.mem_append.mp h with h | h
        · split at h
          · rw [List.mem_singleton.mp h]
            decide
          · cases h
        · unfold Decimal.text at h
          split at h
          · exact Decimal.isNumeralChar_of_mem_positional h
          · exact Decimal.isNumeralChar_of_mem_scientific h

/-- None of the marks of a listing stands in a number. -/
theorem ne_mark_of_isNumeralChar {c : Char} (h : isNumeralChar c = true) : c ∉ [' ', ',', '\n', '"'] := by
  simp only [List.mem_cons, List.not_mem_nil, or_false]
  rintro (rfl | rfl | rfl | rfl) <;> exact absurd h (by decide)

theorem toList_toString (n : Nat) : (toString n).toList = Nat.toDigits 10 n := by
  rw [Nat.toString_eq_repr, Nat.toList_repr]

theorem toDigits_inj {m n : Nat} (h : Nat.toDigits 10 m = Nat.toDigits 10 n) : m = n := by
  have hread := congrArg (fun digits => Nat.ofDigitChars 10 digits 0) h
  simpa [Nat.ofDigitChars_toDigits] using hread

/-! Ids. -/

theorem InstrId.toList_text (id : InstrId) : id.text.toList = 'i' :: Nat.toDigits 10 id.index := by
  rw [InstrId.text, String.toList_append, toList_toString]
  rfl

theorem BlockId.toList_text (id : BlockId) : id.text.toList = 'B' :: Nat.toDigits 10 id.index := by
  rw [BlockId.text, String.toList_append, toList_toString]
  rfl

theorem BlockId.isNumeralChar_of_mem {id : BlockId} {c : Char} (h : c ∈ id.text.toList) : isNumeralChar c = true := by
  rw [BlockId.toList_text] at h
  rcases List.mem_cons.mp h with rfl | h
  · decide
  · exact isNumeralChar_of_mem_toDigits h

theorem BlockId.text_inj {a b : BlockId} (h : a.text.toList = b.text.toList) : a = b := by
  rw [BlockId.toList_text, BlockId.toList_text] at h
  exact congrArg BlockId.mk (toDigits_inj (List.cons.inj h).2)

theorem legible_blockId (marks : List Char) (hmarks : marks ⊆ [' ', ',', '\n', '"']) :
    Legible (Begins marks) (fun id => id.text.toList) (fun _ : BlockId => True) Eq :=
  .word (fun _ _ _ hc hmark => ne_mark_of_isNumeralChar (BlockId.isNumeralChar_of_mem hc) (hmarks hmark))
    fun _ _ _ _ h => BlockId.text_inj h

/-- A block's id needs no escape. -/
theorem BlockId.isQuoted (id : BlockId) : IsQuoted ('"' :: (id.text.toList ++ ['"'])) := by
  refine ⟨id.text.toList.map fun c => [c], List.forall_mem_map.mpr fun c hc => .plain ?_ ?_, ?_⟩
  · rintro rfl
    exact absurd (BlockId.isNumeralChar_of_mem hc) (by decide)
  · rintro rfl
    exact absurd (BlockId.isNumeralChar_of_mem hc) (by decide)
  · rw [← List.flatMap_def, List.flatMap_singleton']

/-! Operands. -/

/-- A way to write numbers and strings: numbers with letters, digits, `.`, `+` and `-`, strings between quotes. -/
structure Spelling where
  number : Binary64 → String
  string : String → String
  isNumeral : ∀ x, ∀ c ∈ (number x).toList, isNumeralChar c = true
  isQuoted : ∀ s, IsQuoted (string s).toList

namespace Spelling

/-- The text of an operand, its number or string written in the given way. -/
def operand (w : Spelling) : Operand → String
  | .constant (.number x) => "%" ++ w.number x
  | .constant (.string s) => "%" ++ w.string s
  | o => o.text

/-- How a listing writes numbers and strings. -/
def standard : Spelling where
  number := Binary64.text
  string := quoted
  isNumeral _ _ hc := Binary64.isNumeralChar_of_mem hc
  isQuoted s := by
    rw [quoted, String.toList_ofList]
    exact isQuoted_quotedChars _

theorem operand_standard : standard.operand = Operand.text := by
  funext o
  unfold operand
  split <;> rfl

end Spelling

/-- A name without blanks, commas and line breaks, such as any name of letters, digits, `_` and `$`. -/
def IsPlainName (name : String) : Prop := ∀ c ∈ name.toList, c ∉ [' ', ',', '\n']

instance : DecidablePred IsPlainName :=
  fun name => List.decidableBAll (fun c => c ∉ [' ', ',', '\n']) name.toList

example : IsPlainName "azAZ09_$" := by decide

/-- The local variable that an operand reads. -/
def Operand.variable? : Operand → Option String
  | localVar name => some name
  | _ => none

section Spelling

variable (w : Spelling)

/-- An operand is a word, or a quoted text behind a percent sign. -/
theorem Spelling.operand_forms (o : Operand) (hname : ∀ name ∈ o.variable?, IsPlainName name) :
    ((∀ c ∈ (w.operand o).toList, c ∉ [',', '\n']) ∧ ¬ ['%', '"'] <+: (w.operand o).toList) ∨
      ∃ cs, IsQuoted cs ∧ (w.operand o).toList = '%' :: cs := by
  have hplain : ∀ c, isNumeralChar c = true → c ∉ [',', '\n'] ∧ c ≠ '"' := by
    intro c hc
    have hmark := ne_mark_of_isNumeralChar hc
    simp only [List.mem_cons, not_or] at hmark ⊢
    exact ⟨⟨hmark.2.1, hmark.2.2.1, hmark.2.2.2.2⟩, hmark.2.2.2.1⟩
  have hpercent : ∀ s : String, ("%" ++ s).toList = '%' :: s.toList := fun _ => String.toList_append
  -- the texts behind a percent sign that are not quoted
  have hword : ∀ cs, (w.operand o).toList = '%' :: cs → (∀ c ∈ cs, isNumeralChar c = true) →
      (∀ c ∈ (w.operand o).toList, c ∉ [',', '\n']) ∧ ¬ ['%', '"'] <+: (w.operand o).toList := by
    intro cs htext hcs
    rw [htext]
    refine ⟨List.forall_mem_cons.mpr ⟨by decide, fun c hc => (hplain c (hcs c hc)).1⟩, ?_⟩
    rintro ⟨rest, hrest⟩
    obtain ⟨_, rfl⟩ := List.cons.inj hrest
    exact (hplain '"' (hcs '"' List.mem_cons_self)).2 rfl
  cases o with
  | instr id =>
      left
      rw [operand, Operand.text, InstrId.toList_text]
      · refine ⟨List.forall_mem_cons.mpr ⟨by decide, fun c hc => (hplain c (isNumeralChar_of_mem_toDigits hc)).1⟩, ?_⟩
        rintro ⟨rest, hrest⟩
        exact absurd (List.cons.inj hrest).1 (by decide)
      all_goals simp
  | localVar name =>
      left
      have htext : (w.operand (.localVar name)).toList = '@' :: name.toList := String.toList_append
      rw [htext]
      refine ⟨List.forall_mem_cons.mpr ⟨by decide, fun c hc hmark => ?_⟩, ?_⟩
      · exact hname name rfl c hc (List.mem_cons_of_mem _ hmark)
      · rintro ⟨rest, hrest⟩
        exact absurd (List.cons.inj hrest).1 (by decide)
  | constant value =>
      cases value with
      | string value => exact .inr ⟨_, w.isQuoted value, hpercent _⟩
      | number x => exact .inl (hword _ (hpercent _) (w.isNumeral x))
      | bool value => cases value <;> exact .inl (hword _ (hpercent _) (List.all_eq_true.mp (by decide)))
      | undefined | null => exact .inl (hword _ (hpercent _) (List.all_eq_true.mp (by decide)))
  | count n =>
      refine .inl (hword _ (hpercent _) fun c hc => ?_)
      rw [toList_toString] at hc
      exact isNumeralChar_of_mem_toDigits hc
  | block id =>
      refine .inr ⟨_, id.isQuoted, ?_⟩
      rw [operand, Operand.text, String.toList_append, String.toList_append]
      · rfl
      all_goals simp

/-- Where an operand ends is seen without knowing what it is. -/
theorem legible_operand : Legible (Begins [',', '\n']) (fun o => (w.operand o).toList)
    (fun o : Operand => ∀ name ∈ o.variable?, IsPlainName name) fun o p => w.operand o = w.operand p := by
  -- a word is no quoted text, whatever follows it
  have hapart : ∀ {a cs rest rest' : List Char}, ¬ ['%', '"'] <+: a → Begins [',', '\n'] rest → IsQuoted cs →
      a ++ rest ≠ '%' :: cs ++ rest' := by
    rintro a _ rest rest' hquote hrest ⟨body, _, rfl⟩ h
    rcases a with _ | ⟨c, _ | ⟨d, a⟩⟩
    · have hhead : rest = '%' :: _ := h
      rw [hhead, begins_cons] at hrest
      exact absurd hrest (by decide)
    · have hhead : rest = '"' :: _ := (List.cons.inj h).2
      rw [hhead, begins_cons] at hrest
      exact absurd hrest (by decide)
    · obtain ⟨hc, h⟩ := List.cons.inj h
      obtain ⟨hd, _⟩ := List.cons.inj h
      exact hquote ⟨a, by rw [hc, hd]; rfl⟩
  intro o p rest rest' ho hp hrest hrest' h
  dsimp only at h ⊢
  rw [← String.toList_inj]
  rcases w.operand_forms o ho with ⟨hword, hquote⟩ | ⟨cs, hcs, htext⟩
  · rcases w.operand_forms p hp with ⟨hword', _⟩ | ⟨ds, hds, htext'⟩
    · exact append_inj_of_begins hword hword' hrest hrest' h
    · exact absurd (htext' ▸ h) (hapart hquote hrest hds)
  · rcases w.operand_forms p hp with ⟨_, hquote'⟩ | ⟨ds, hds, htext'⟩
    · exact absurd (htext ▸ h.symm) (hapart hquote' hrest' hcs)
    · rw [htext, htext'] at h ⊢
      obtain ⟨rfl, hend⟩ := hcs.append_inj hds (List.cons.inj h).2
      exact ⟨rfl, hend⟩

end Spelling

/-! Instructions. -/

/-- The names that an instruction shows. -/
def Instr.names (i : Instr) : List String := i.binding.toList ++ i.operands.filterMap Operand.variable?

/-- The names that an instruction shows are plain. -/
def Instr.NamesPlain (i : Instr) : Prop := ∀ name ∈ i.names, IsPlainName name

/-- What a listing shows of the two instructions is the same, if it writes operands in the given way. -/
structure Instr.Alike (operand : Operand → String) (i j : Instr) : Prop where
  opcode : i.opcode = j.opcode
  binding : i.binding = j.binding
  /-- The id of a bound instruction does not show. -/
  id : i.binding = none → i.id = j.id
  operands : List.Forall₂ (fun o p => operand o = operand p) i.operands j.operands

theorem legible_target : Legible (Begins [' ']) (fun i => i.target.toList) Instr.NamesPlain
    fun i j => i.binding = j.binding ∧ (i.binding = none → i.id = j.id) := by
  have hnamed : ∀ name : String, ("@" ++ name).toList = '@' :: name.toList := fun _ => String.toList_append
  refine .word (fun i hi => ?_) fun i j _ _ h => ?_
  · rw [Instr.target]
    cases hbinding : i.binding with
    | none =>
        rw [InstrId.toList_text]
        refine List.forall_mem_cons.mpr ⟨by decide, fun c hc hmark => ?_⟩
        exact ne_mark_of_isNumeralChar (isNumeralChar_of_mem_toDigits hc)
          (List.mem_singleton.mp hmark ▸ List.mem_cons_self)
    | some name =>
        have hname : IsPlainName name := hi name (List.mem_append_left _ (by rw [hbinding]; exact List.mem_cons_self))
        simp only [hnamed]
        refine List.forall_mem_cons.mpr ⟨by decide, fun c hc hmark => hname c hc ?_⟩
        exact List.mem_singleton.mp hmark ▸ List.mem_cons_self
  · simp only [Instr.target] at h
    cases hi : i.binding with
    | none =>
        cases hj : j.binding with
        | none =>
            simp only [hi, hj, InstrId.toList_text] at h
            exact ⟨rfl, fun _ => congrArg InstrId.mk (toDigits_inj (List.cons.inj h).2)⟩
        | some name =>
            simp only [hi, hj, hnamed, InstrId.toList_text] at h
            exact absurd (List.cons.inj h).1 (by decide)
    | some name =>
        cases hj : j.binding with
        | none =>
            simp only [hi, hj, hnamed, InstrId.toList_text] at h
            exact absurd (List.cons.inj h).1 (by decide)
        | some name' =>
            simp only [hi, hj, hnamed] at h
            rw [String.toList_inj.mp (List.cons.inj h).2]
            exact ⟨rfl, fun hnone => by cases hnone⟩

theorem legible_opcode {good : Instr → Prop} :
    Legible (Begins [' ', '\n']) (fun i => i.opcode.mnemonic.toList) good fun i j => i.opcode = j.opcode := by
  refine .word (fun i _ => ?_) fun i j _ _ h => ?_
  · have hall : i.opcode.mnemonic.toList.all (fun c => c ∉ [' ', '\n']) = true := by cases i.opcode <;> decide
    exact fun c hc => of_decide_eq_true (List.all_eq_true.mp hall c hc)
  · have hread := congrArg Opcode.ofMnemonic? (String.toList_inj.mp h)
    rw [Opcode.ofMnemonic?_mnemonic, Opcode.ofMnemonic?_mnemonic] at hread
    exact Option.some.inj hread

/-- Behind what stands before a list comes the list, or a line break if the list is empty. -/
theorem begins_listText {opening : String} {tail rest : List Char} (hopening : opening.toList = ' ' :: tail)
    (items : List String) (hrest : Begins ['\n'] rest) :
    Begins [' ', '\n'] ((listText opening items).toList ++ rest) := by
  cases items with
  | nil => exact hrest.mono (List.subset_cons_self _ _)
  | cons item items =>
      rw [listText, List.isEmpty_cons, if_neg Bool.false_ne_true, String.toList_append, hopening]
      exact begins_cons.mpr List.mem_cons_self

theorem legible_instr (w : Spelling) :
    Legible (Begins ['\n']) (fun i => (i.textWith w.operand).toList) Instr.NamesPlain (Instr.Alike w.operand) := by
  have hoperands := ((legible_operand w).list " " rfl).on Instr.operands Instr.NamesPlain fun i hi o ho name hname =>
    hi name (List.mem_append_right _ (List.mem_filterMap.mpr ⟨o, ho, hname⟩))
  have hcode := legible_opcode.append hoperands fun i rest _ hrest => begins_listText rfl _ hrest
  have hright := (Legible.fixed " = ".toList).append hcode fun _ _ _ _ => trivial
  have hline := legible_target.append hright fun _ _ _ _ => begins_cons.mpr List.mem_cons_self
  have htext : ∀ i : Instr, (i.textWith w.operand).toList = i.target.toList ++
      (" = ".toList ++ (i.opcode.mnemonic.toList ++ (listText " " (i.operands.map w.operand)).toList)) := by
    intro i
    simp only [Instr.textWith, String.toList_append, List.append_assoc]
  intro i j rest rest' hi hj hrest hrest' h
  dsimp only at h
  rw [htext, htext] at h
  obtain ⟨⟨⟨hbinding, hid⟩, _, hopcode, hoperands⟩, hend⟩ := hline i j rest rest' hi hj hrest hrest' h
  exact ⟨⟨hopcode, hbinding, hid, hoperands⟩, hend⟩

theorem Instr.Alike.text_eq {operand : Operand → String} {i j : Instr} (h : i.Alike operand j) :
    i.textWith operand = j.textWith operand := by
  have htarget : i.target = j.target := by
    rw [Instr.target, Instr.target, ← h.binding]
    cases hbinding : i.binding with
    | none => rw [h.id hbinding]
    | some name => rfl
  have hoperands : i.operands.map operand = j.operands.map operand := by
    rw [← List.forall₂_eq_eq_eq, List.forall₂_map_left_iff, List.forall₂_map_right_iff]
    exact h.operands
  rw [Instr.textWith, Instr.textWith, htarget, h.opcode, hoperands]

/-! Blocks and graphs. -/

def Block.NamesPlain (b : Block) : Prop := ∀ i ∈ b.instrs, i.NamesPlain

/-- What a listing shows of the two blocks is the same. -/
structure Block.Alike (operand : Operand → String) (b c : Block) : Prop where
  id : b.id = c.id
  succs : b.succs = c.succs
  instrs : List.Forall₂ (Instr.Alike operand) b.instrs c.instrs

/-- Nothing, or the line of another block. -/
def EndsBlock (rest : List Char) : Prop := Begins ['\n'] rest ∧ ¬ "\n  ".toList <+: rest

theorem Block.toList_textWith (operand : Operand → String) (b : Block) :
    (b.textWith operand).toList = "block ".toList ++ (b.id.text.toList ++
      ((listText " -> " (b.succs.map BlockId.text)).toList ++
        marked "\n  ".toList (fun i => (i.textWith operand).toList) b.instrs)) := by
  rw [Block.textWith, toList_intercalate_cons]
  simp only [String.toList_append, List.append_assoc]

theorem legible_block (w : Spelling) :
    Legible EndsBlock (fun b => (b.textWith w.operand).toList) Block.NamesPlain (Block.Alike w.operand) := by
  have hbreak : ∀ (i : Instr) rest, Begins ['\n'] ("\n  ".toList ++ ((i.textWith w.operand).toList ++ rest)) :=
    fun _ _ => begins_cons.mpr List.mem_cons_self
  have hinstrs := ((legible_instr w).each hbreak).on Block.instrs Block.NamesPlain fun b hb => hb
  have hsuccs := ((legible_blockId [',', '\n'] (by decide)).list " -> " rfl).on Block.succs Block.NamesPlain
    fun _ _ _ _ => trivial
  have htail := hsuccs.append hinstrs fun b rest _ hrest => follows_marked hbreak b.instrs hrest.1
  have hid := (legible_blockId [' ', '\n'] (by decide)).on Block.id Block.NamesPlain fun _ _ => trivial
  have hhead := hid.append htail fun b rest _ hrest => by
    rw [List.append_assoc]
    exact begins_listText rfl _ (follows_marked hbreak b.instrs hrest.1)
  have hblock := (Legible.fixed "block ".toList).append hhead fun _ _ _ _ => trivial
  intro b c rest rest' hb hc hrest hrest' h
  dsimp only at h
  rw [Block.toList_textWith, Block.toList_textWith] at h
  obtain ⟨⟨_, hid, hsuccs, hinstrs⟩, hend⟩ := hblock b c rest rest' hb hc hrest hrest' h
  exact ⟨⟨hid, List.forall₂_eq_eq_eq ▸ hsuccs, hinstrs⟩, hend⟩

theorem Block.Alike.text_eq {operand : Operand → String} {b c : Block} (h : b.Alike operand c) :
    b.textWith operand = c.textWith operand := by
  have hinstrs : b.instrs.map (Instr.textWith operand) = c.instrs.map (Instr.textWith operand) := by
    rw [← List.forall₂_eq_eq_eq, List.forall₂_map_left_iff, List.forall₂_map_right_iff]
    exact h.instrs.imp fun _ _ halike => halike.text_eq
  rw [Block.textWith, Block.textWith, h.id, h.succs, hinstrs]

def Graph.NamesPlain (g : Graph) : Prop := ∀ b ∈ g.blocks, b.NamesPlain

/-- Whatever way numbers and strings are written in, the text of a graph tells its blocks. -/
theorem textWith_eq_iff_alike (w : Spelling) {g h : Graph} (hg : g.NamesPlain) (hh : h.NamesPlain) :
    g.textWith w.operand = h.textWith w.operand ↔ List.Forall₂ (Block.Alike w.operand) g.blocks h.blocks := by
  have hbreak : ∀ (b : Block) rest, EndsBlock ("\n".toList ++ ((b.textWith w.operand).toList ++ rest)) := by
    intro b rest
    refine ⟨begins_cons.mpr List.mem_cons_self, ?_⟩
    rintro ⟨tail, htail⟩
    rw [Block.toList_textWith] at htail
    exact absurd (List.cons.inj (List.cons.inj htail).2).1 (by decide)
  have hend : EndsBlock [] ∧ ¬ "\n".toList <+: [] := ⟨⟨begins_nil, by decide⟩, by decide⟩
  have htext : ∀ (b : Block) bs, ("\n".intercalate ((b :: bs).map (Block.textWith w.operand))).toList =
      (b.textWith w.operand).toList ++ (marked "\n".toList (fun b => (b.textWith w.operand).toList) bs ++ []) := by
    intro b bs
    rw [List.map_cons, toList_intercalate_cons, List.append_nil]
  constructor
  · intro heq
    rw [Graph.textWith, Graph.textWith, ← String.toList_inj] at heq
    rw [Graph.NamesPlain] at hg hh
    generalize g.blocks = bs at hg heq ⊢
    generalize h.blocks = cs at hh heq ⊢
    rcases bs with _ | ⟨b, bs⟩ <;> rcases cs with _ | ⟨c, cs⟩
    · exact .nil
    · rw [htext, Block.toList_textWith] at heq
      cases heq
    · rw [htext, Block.toList_textWith] at heq
      cases heq
    · obtain ⟨hb, hbs⟩ := List.forall_mem_cons.mp hg
      obtain ⟨hc, hcs⟩ := List.forall_mem_cons.mp hh
      rw [htext, htext] at heq
      obtain ⟨halike, heq⟩ := legible_block w b c _ _ hb hc (follows_marked hbreak bs hend.1)
        (follows_marked hbreak cs hend.1) heq
      exact .cons halike ((legible_block w).each hbreak bs cs [] [] hbs hcs hend hend heq).1
  · intro halike
    have hmap : g.blocks.map (Block.textWith w.operand) = h.blocks.map (Block.textWith w.operand) := by
      rw [← List.forall₂_eq_eq_eq, List.forall₂_map_left_iff, List.forall₂_map_right_iff]
      exact halike.imp fun _ _ hblock => hblock.text_eq
    rw [Graph.textWith, Graph.textWith, hmap]

/-- Two graphs have the same text if and only if they have the same blocks, up to what does not show. This does not
depend on how numbers and strings are written, as long as numbers have no marks and strings are quoted. -/
theorem text_eq_iff_alike (g h : Graph) (hg : g.NamesPlain) (hh : h.NamesPlain) :
    (g.text = h.text ↔ List.Forall₂ (Block.Alike Operand.text) g.blocks h.blocks) ∧
    ∀ w : Spelling, g.textWith w.operand = h.textWith w.operand ↔
      List.Forall₂ (Block.Alike w.operand) g.blocks h.blocks := by
  refine ⟨?_, fun w => textWith_eq_iff_alike w hg hh⟩
  rw [Graph.text, Graph.text, ← Spelling.operand_standard]
  exact textWith_eq_iff_alike .standard hg hh

/-- A block that binds the given first instruction, and one with a string that looks like parts of a listing. -/
def quotingGraph (first : Instr) (entry : Operand) : Graph :=
  ⟨⟨0⟩, none, [⟨⟨0⟩, [first, ⟨⟨5⟩, .function, [entry], none⟩, ⟨⟨6⟩, .branch, [.localVar "$x_1"], none⟩], [⟨1⟩, ⟨0⟩]⟩,
    ⟨⟨1⟩, [⟨⟨8⟩, .literal, [.constant (.string "a, \"i9\"\n  i9 = ret\nblock B2 -> B0")], none⟩], []⟩], .empty⟩

/-- Neither the id of a bound instruction shows, nor whether `1` counts something, nor whether `B7` is a block. -/
theorem text_eq_iff_alike_quoting :
    let g := quotingGraph ⟨⟨1⟩, .array, [.count 1], some "$x_1"⟩ (.block ⟨7⟩)
    let h := quotingGraph ⟨⟨3⟩, .array, [.constant (.number (.ofNat 1))], some "$x_1"⟩ (.constant (.string "B7"))
    g.NamesPlain ∧ h.NamesPlain ∧ g.text = h.text ∧
      List.Forall₂ (Block.Alike Operand.text) g.blocks h.blocks := by
  have hg : (quotingGraph ⟨⟨1⟩, .array, [.count 1], some "$x_1"⟩ (.block ⟨7⟩)).NamesPlain := by
    unfold Graph.NamesPlain Block.NamesPlain Instr.NamesPlain
    decide
  have hh : (quotingGraph ⟨⟨3⟩, .array, [.constant (.number (.ofNat 1))], some "$x_1"⟩
      (.constant (.string "B7"))).NamesPlain := by
    unfold Graph.NamesPlain Block.NamesPlain Instr.NamesPlain
    decide
  have htext : (quotingGraph ⟨⟨1⟩, .array, [.count 1], some "$x_1"⟩ (.block ⟨7⟩)).text =
      (quotingGraph ⟨⟨3⟩, .array, [.constant (.number (.ofNat 1))], some "$x_1"⟩ (.constant (.string "B7"))).text := by
    decide +kernel
  exact ⟨hg, hh, htext, (text_eq_iff_alike _ _ hg hh).1.mp htext⟩

end ScriptSsa
