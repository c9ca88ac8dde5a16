import MiniSql.Proofs.Acceptance
import MiniSql.Proofs.Opening
import MiniSql.Proofs.Relocation

/-!
# Tokens in their places

The tokens of a text are its lexemes that stand for one, each with the place of its first character,
and the `finish` token behind them (`place_eq_placed`). The parser sees those that are no line
breaks (`ofTokens_tokenize`). A text that begins some lines further down has its tokens moved down
(`placed_down`).
-/

namespace MiniSql

/-! ## Places -/

namespace Position

/-- The place so many lines further down. -/
def down (n : Nat) (p : Position) : Position := ⟨p.line + n, p.column⟩

/-- Moving down by whole lines commutes with reading a character. -/
theorem next_down (n : Nat) (p : Position) (c : Char) :
    (p.down n).next c = (p.next c).down n := by
  unfold next down
  split
  · simp only [Nat.add_right_comm]
  · rfl

theorem advance_down (n : Nat) (p : Position) (cs : List Char) :
    (p.down n).advance cs = (p.advance cs).down n := by
  induction cs generalizing p with
  | nil => rfl
  | cons c cs ih => rw [advance_cons, advance_cons, next_down, ih]

/-- The line grows by the line feeds that are read. -/
theorem line_advance (p : Position) (cs : List Char) :
    (p.advance cs).line = p.line + cs.count '\n' := by
  induction cs generalizing p with
  | nil => rfl
  | cons c cs ih =>
    rw [advance_cons, ih, next]
    split
    · next hc => simp [hc]; omega
    · next hc => simp [hc]

/-- Behind a line break a text goes on as if it began there, some lines further down. -/
theorem advance_append_lineBreak (cs : List Char) :
    first.advance (cs ++ ['\n']) = first.down (cs.count '\n' + 1) := by
  rw [advance_append]
  show (⟨(first.advance cs).line + 1, 1⟩ : Position) = _
  rw [line_advance]
  simp [down, first, Nat.add_assoc]

end Position

namespace Token

/-- The token moved down by so many lines. -/
def down (n : Nat) (t : Token) : Token := { t with position := t.position.down n }

theorem relocates_down (n : Nat) : Relocates (down n) := ⟨fun _ => rfl, fun _ => rfl⟩

/-- The tokens of a run of lexemes in their places. -/
def placed (p : Position) : List Lexeme → List Token
  | [] => []
  | l :: ls =>
    match l.token? with
    | some (kind, text) => ⟨kind, text, p⟩ :: placed (p.advance l.source) ls
    | none => placed (p.advance l.source) ls

theorem place_eq_placed (p : Position) (ls : List Lexeme) :
    place p ls = placed p ls ++ [⟨.finish, "", p.advance (ls.flatMap Lexeme.source)⟩] := by
  induction ls generalizing p with
  | nil => rfl
  | cons l ls ih =>
    rw [place, placed, List.flatMap_cons, Position.advance_append, ih]
    cases l.token? <;> rfl

/-- Lexemes are placed from where those before them end. -/
theorem placed_append (p : Position) (ls ls' : List Lexeme) :
    placed p (ls ++ ls') = placed p ls ++ placed (p.advance (ls.flatMap Lexeme.source)) ls' := by
  induction ls generalizing p with
  | nil => rfl
  | cons l ls ih =>
    rw [List.cons_append, placed, placed, List.flatMap_cons, Position.advance_append, ih]
    cases l.token? <;> rfl

/-- Placing the lexemes lower moves every token down by as many lines. -/
theorem placed_down (n : Nat) (p : Position) (ls : List Lexeme) :
    placed (p.down n) ls = (placed p ls).map (down n) := by
  induction ls generalizing p with
  | nil => rfl
  | cons l ls ih =>
    rw [placed, placed, Position.advance_down, ih]
    cases l.token? <;> rfl

/-- Giving lexemes their places keeps what they stand for. -/
theorem map_placed (p : Position) (ls : List Lexeme) :
    (placed p ls).map (fun t => (t.kind, t.text)) = ls.filterMap Lexeme.token? := by
  induction ls generalizing p with
  | nil => rfl
  | cons l ls ih =>
    rw [placed, List.filterMap_cons]
    cases l.token? <;> simp [ih]

end Token

/-! ## Streams -/

/-- The tokens of a text that the parser sees. -/
def significant (text : String) : List Token :=
  (Token.placed .first (Lexeme.cut text.toList)).filter (·.kind ≠ .lineBreak)

/-- Every token is that of a lexeme of the text. -/
theorem exists_lexeme_of_mem_placed {p : Position} {cs : List Char} {t : Token}
    (h : t ∈ Token.placed p (Lexeme.cut cs)) :
    ∃ l ∈ Lexeme.cut cs, l.token? = some (t.kind, t.text) := by
  have hmem : (t.kind, t.text) ∈ (Lexeme.cut cs).filterMap Lexeme.token? := by
    rw [← Token.map_placed p]
    exact List.mem_map_of_mem h
  simpa using hmem

/-- What the parser sees of a text, and where the text ends. -/
theorem ofTokens_tokenize (text : String) :
    TokenStream.ofTokens (tokenize text) =
      ⟨significant text, Position.first.advance text.toList⟩ := by
  have hne : ∀ t ∈ significant text, decide (t.kind ≠ .finish) = true := by
    intro t ht
    obtain ⟨l, hl, htoken⟩ := exists_lexeme_of_mem_placed (List.mem_of_mem_filter ht)
    obtain ⟨c, cs, rfl⟩ := Lexeme.exists_scan_of_mem_cut hl
    exact decide_eq_true fun hkind => Lexeme.kind_ne_finish_of_scan (hkind ▸ htoken)
  have hvisible : (tokenize text).filter (·.kind ≠ .lineBreak) =
      significant text ++ [⟨.finish, "", Position.first.advance text.toList⟩] := by
    rw [tokenize, Token.place_eq_placed, Lexeme.flatten_cut, List.filter_append]
    rfl
  rw [Grammar.ofTokens_eq hvisible.symm, List.takeWhile_append_of_pos hne,
    List.dropWhile_append_of_pos hne]
  simp

end MiniSql
