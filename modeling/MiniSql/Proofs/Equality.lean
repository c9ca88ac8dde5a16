import MiniSql.Proofs.Grouping
import MiniSql.Proofs.Wording

/-!
# Equality of programs

Programs are compared part by part, and their numbers as numbers are compared. So a program that
holds a `nan` is not equal to itself, and that is the only reason for one not to be
(`Program.equals_self_iff`).

The numbers in a program are found in its wording (`Program.number_mem_words`).
-/

namespace MiniSql

variable {x : Binary64}

/-! ## Comparing programs -/

mutual

/-- Equality, part by part. It is not identity, because equality of numbers is not. -/
def Expr.equals : Expr → Expr → Bool
  | .identifier a, .identifier b => a == b
  | .number a, .number b => a.equals b
  | .string a, .string b => a == b
  | .boolean a, .boolean b => a == b
  | .array as, .array bs => Expr.equalsEach as bs
  | .binary l op r, .binary l' op' r' => l.equals l' && op == op' && r.equals r'
  | _, _ => false

def Expr.equalsEach : List Expr → List Expr → Bool
  | [], [] => true
  | a :: as, b :: bs => a.equals b && Expr.equalsEach as bs
  | _, _ => false

end

/-- Equality of conditions that may be absent. -/
def Expr.equals? : Option Expr → Option Expr → Bool
  | none, none => true
  | some a, some b => a.equals b
  | _, _ => false

def Select.equals (a b : Select) : Bool :=
  a.table == b.table && a.columns == b.columns && Expr.equals? a.condition? b.condition? &&
    a.groupBy? == b.groupBy?

def Insert.equals (a b : Insert) : Bool :=
  a.table == b.table && a.columns? == b.columns? && a.values.equals b.values

def Statement.equals : Statement → Statement → Bool
  | .select a, .select b => a.equals b
  | .insert a, .insert b => a.equals b
  | _, _ => false

def Program.equals : Program → Program → Bool
  | [], [] => true
  | a :: p, b :: q => a.equals b && Program.equals p q
  | _, _ => false

/-! ## The numbers in a program -/

mutual

/-- The numbers in an expression. -/
def Expr.numbers : Expr → List Binary64
  | .number value => [value]
  | .array elements => Expr.numbersOfEach elements
  | .binary left _ right => left.numbers ++ right.numbers
  | _ => []

def Expr.numbersOfEach : List Expr → List Binary64
  | [] => []
  | e :: es => e.numbers ++ Expr.numbersOfEach es

end

def Statement.numbers : Statement → List Binary64
  | .select s => s.condition?.elim [] Expr.numbers
  | .insert i => i.values.numbers

/-- The numbers in a program, nested ones and all. -/
def Program.numbers (p : Program) : List Binary64 := p.flatMap Statement.numbers

/-! ## A program and itself -/

/-- NaN is the number that differs from itself. -/
theorem Binary64.equals_self_iff : x.equals x = true ↔ x ≠ .nan := by
  constructor
  · rintro h rfl
    nomatch h
  · exact equals_self

mutual

/-- An expression equals itself unless NaN is in it. -/
theorem Expr.equals_self_iff (e : Expr) : e.equals e = true ↔ .nan ∉ e.numbers := by
  cases e with
  | number value =>
    rw [equals, numbers, Binary64.equals_self_iff, List.mem_singleton]
    exact ne_comm
  | array es =>
    rw [equals, numbers]
    exact equalsEach_self_iff es
  | binary l op r =>
    have hl := equals_self_iff l
    have hr := equals_self_iff r
    rw [equals, numbers, Bool.and_eq_true, Bool.and_eq_true, hl, hr, List.mem_append, not_or,
      beq_iff_eq, and_iff_left (Eq.refl op)]
  | _ => simp [equals, numbers]

theorem Expr.equalsEach_self_iff (es : List Expr) :
    Expr.equalsEach es es = true ↔ .nan ∉ Expr.numbersOfEach es := by
  cases es with
  | nil => simp [equalsEach, numbersOfEach]
  | cons e es =>
    have he := equals_self_iff e
    have hes := equalsEach_self_iff es
    rw [equalsEach, numbersOfEach, Bool.and_eq_true, he, hes, List.mem_append, not_or]

end

theorem Expr.equals?_self_iff (e? : Option Expr) :
    Expr.equals? e? e? = true ↔ .nan ∉ e?.elim [] numbers := by
  cases e? with
  | none => simp [equals?]
  | some e => exact e.equals_self_iff

/-- A statement equals itself unless NaN is in it. -/
theorem Statement.equals_self_iff (s : Statement) : s.equals s = true ↔ .nan ∉ s.numbers := by
  cases s with
  | select s =>
    show s.equals s = true ↔ .nan ∉ s.condition?.elim [] Expr.numbers
    simp [Select.equals, Expr.equals?_self_iff]
  | insert i =>
    show i.equals i = true ↔ .nan ∉ i.values.numbers
    simp [Insert.equals, Expr.equals_self_iff]

/-- A program is equal to itself if and only if it holds no `nan`. -/
theorem Program.equals_self_iff (p : Program) : equals p p = true ↔ .nan ∉ numbers p := by
  induction p with
  | nil => simp [equals, numbers]
  | cons s p ih =>
    unfold numbers at ih ⊢
    rw [equals, Bool.and_eq_true, Statement.equals_self_iff, ih, List.flatMap_cons, List.mem_append,
      not_or]

/-! ## Numbers are words -/

namespace Word

/-- Commas between lists of words drop no word. -/
theorem mem_separate {w : Word} {ws : List Word} {wss : List (List Word)} (hw : w ∈ ws)
    (hws : ws ∈ wss) : w ∈ separate wss := by
  induction wss with
  | nil => nomatch hws
  | cons vs wss ih =>
    cases wss with
    | nil =>
      obtain rfl := List.mem_singleton.mp hws
      exact hw
    | cons vs' wss =>
      rw [separate, List.mem_append, List.mem_cons]
      rcases List.mem_cons.mp hws with rfl | hlater
      · exact .inl hw
      · exact .inr (.inr (ih hlater))

end Word

mutual

/-- The numbers of an expression are among its words. -/
theorem Expr.number_mem_words (e : Expr) (h : x ∈ e.numbers) : .number x ∈ e.words := by
  cases e with
  | number value =>
    obtain rfl := List.mem_singleton.mp h
    exact List.mem_singleton_self _
  | array es =>
    obtain ⟨ws, hws, hx⟩ := exists_number_mem_words es h
    have hseparate := Word.mem_separate hx hws
    exact List.mem_append_left _ (List.mem_cons_of_mem _ hseparate)
  | binary l op r =>
    have hl := number_mem_words l
    have hr := number_mem_words r
    rcases List.mem_append.mp h with h | h
    · exact List.mem_append_left _ (hl h)
    · exact List.mem_append_right _ (List.mem_cons_of_mem _ (hr h))
  | _ => nomatch h

theorem Expr.exists_number_mem_words (es : List Expr) (h : x ∈ Expr.numbersOfEach es) :
    ∃ ws ∈ Expr.wordsOfEach es, .number x ∈ ws := by
  cases es with
  | nil => nomatch h
  | cons e es =>
    have he := number_mem_words e
    have hes := exists_number_mem_words es
    rcases List.mem_append.mp h with h | h
    · exact ⟨e.words, List.mem_cons_self, he h⟩
    · obtain ⟨ws, hws, hx⟩ := hes h
      exact ⟨ws, List.mem_cons_of_mem _ hws, hx⟩

end

/-- The numbers of a statement are among its words. -/
theorem Statement.number_mem_words (s : Statement) (h : x ∈ s.numbers) : .number x ∈ s.words := by
  cases s with
  | select s =>
    have hcondition : .number x ∈ s.conditionWords := by
      change x ∈ s.condition?.elim [] Expr.numbers at h
      unfold Select.conditionWords
      cases hs : s.condition? with
      | none =>
        rw [hs] at h
        nomatch h
      | some e =>
        rw [hs] at h
        exact List.mem_cons_of_mem _ (e.number_mem_words h)
    show .number x ∈ s.words
    simp [Select.words, hcondition]
  | insert i =>
    have hvalues := i.values.number_mem_words h
    show .number x ∈ i.words
    simp [Insert.words, hvalues]

/-- The wording of a program names its numbers. -/
theorem Program.number_mem_words {p : Program} (h : x ∈ numbers p) : .number x ∈ words p := by
  obtain ⟨s, hs, hx⟩ := List.mem_flatMap.mp h
  exact List.mem_flatMap.mpr ⟨s, hs, List.mem_append_left _ (s.number_mem_words hx)⟩

end MiniSql
