import Mathlib.Data.List.DropRight
import MiniSql.Numeric.Power
import MiniSql.Proofs.Munch

/-!
# Where tokens stand

Every token of a text has an offset, that of the first character of its lexeme, and its place is the
place of that offset: its line is told by the line breaks before it, its column by the characters
since the last of them (`tokenize_located`). So tokens come in the order of their places.

Places are counted up character by character (`Position.advance`), and the depth of a block comment
mark by mark (`ReachesDepth`). In a text of fewer than 2³² - 1 characters the counts of lines and
columns stay below 2³², and that of open comments stays below 2³¹, since each of them takes two
characters.
-/

namespace MiniSql

/-! ## Places and offsets -/

/-- The place of an offset, read off the text before it. -/
def placeAt (cs : List Char) (offset : Nat) : Position where
  line := 1 + (cs.take offset).count '\n'
  column := 1 + ((cs.take offset).rtakeWhile (· != '\n')).length

namespace Position

variable {p q r : Position} {cs us : List Char}

/-- One place comes before another: it has a smaller line, or a smaller column in the same line. -/
def Precedes (p q : Position) : Prop := p.line < q.line ∨ p.line = q.line ∧ p.column < q.column

theorem Precedes.trans (h : p.Precedes q) (h' : q.Precedes r) : p.Precedes r := by
  unfold Precedes at h h' ⊢
  omega

theorem precedes_next (p : Position) (c : Char) : p.Precedes (p.next c) := by
  unfold Precedes next
  split
  · exact .inl (Nat.lt_succ_self _)
  · exact .inr ⟨rfl, Nat.lt_succ_self _⟩

/-- Any characters lead to a later position. -/
theorem precedes_advance (p : Position) (h : cs ≠ []) : p.Precedes (p.advance cs) := by
  induction cs generalizing p with
  | nil => exact absurd rfl h
  | cons c cs ih =>
    have hnext := precedes_next p c
    rw [advance_cons]
    by_cases hcs : cs = []
    · subst hcs
      exact hnext
    · exact hnext.trans (ih _ hcs)

theorem advance_first (us : List Char) : first.advance us = placeAt us us.length := by
  rw [placeAt, List.take_length]
  -- by induction from the end, since a line break starts the count of columns anew
  induction us using List.reverseRecOn with
  | nil => rfl
  | append_singleton us c ih =>
    rw [advance_append, ih, advance_cons, advance_nil, next, List.count_append]
    by_cases hc : c = '\n'
    · subst hc
      rw [if_pos rfl, List.rtakeWhile_concat_neg _ _ _ (by decide)]
      rfl
    · rw [if_neg hc, List.rtakeWhile_concat_pos _ _ _ (by simpa using hc), List.length_append,
        List.count_singleton, if_neg (by simpa using hc)]
      rfl

/-- To advance over the first characters leads to the place of the next one. -/
theorem advance_take (cs : List Char) (k : Nat) : first.advance (cs.take k) = placeAt cs k := by
  rw [advance_first, placeAt, placeAt, List.take_length]

theorem placeAt_length (us cs : List Char) : placeAt (us ++ cs) us.length = first.advance us := by
  rw [← advance_take, List.take_left' rfl]

/-- Places are ordered as offsets are. -/
theorem placeAt_precedes {j k : Nat} (hjk : j < k) (hk : k ≤ cs.length) :
    (placeAt cs j).Precedes (placeAt cs k) := by
  -- the characters from one offset up to the other lead from place to place
  have hsplit : cs.take k = cs.take j ++ (cs.drop j).take (k - j) := by
    rw [← List.take_add, Nat.add_sub_cancel' (Nat.le_of_lt hjk)]
  have hne : (cs.drop j).take (k - j) ≠ [] := by
    rw [← List.length_pos_iff, List.length_take, List.length_drop]
    omega
  rw [← advance_take, ← advance_take, hsplit, advance_append]
  exact precedes_advance _ hne

/-- Neither line nor column runs ahead of the number of characters. -/
theorem line_column_advance_le (us : List Char) :
    (first.advance us).line ≤ us.length + 1 ∧ (first.advance us).column ≤ us.length + 1 := by
  rw [advance_first, placeAt, List.take_length]
  have hlines := List.count_le_length (a := '\n') (l := us)
  have hcolumns := (List.rtakeWhile_suffix (· != '\n') us).length_le
  constructor
  · show 1 + us.count '\n' ≤ us.length + 1
    omega
  · show 1 + (us.rtakeWhile (· != '\n')).length ≤ us.length + 1
    omega

end Position

namespace Lexeme

variable {start depth depth' : Nat} {cs us rest : List Char} {tokens : List (TokenKind × String)}
  {offsets : List Nat}

/-! ## Offsets -/

/-- A text that begins at the offset `start` divides into gaps and lexemes with these tokens, and
these are the offsets of their first characters. The `finish` token stands behind the text. -/
inductive Located : Nat → List Char → List (TokenKind × String) → List Nat → Prop
  | finish {start : Nat} {gap : List Char} (hgap : Gap gap []) :
      Located start gap [(.finish, "")] [start + gap.length]
  | token {start : Nat} {gap us rest : List Char} {token : TokenKind × String}
      {tokens : List (TokenKind × String)} {offsets : List Nat} (hgap : Gap gap (us ++ rest))
      (h : Next us (some token) rest)
      (hs : Located (start + gap.length + us.length) rest tokens offsets) :
      Located start (gap ++ (us ++ rest)) (token :: tokens) ((start + gap.length) :: offsets)

namespace Located

/-- No token stands before the start of the text. -/
theorem start_le (h : Located start cs tokens offsets) : ∀ k ∈ offsets, start ≤ k := by
  induction h with
  | finish _ => simp
  | token _ _ _ ih =>
    intro k hk
    rcases List.mem_cons.mp hk with rfl | hk
    · omega
    · have := ih k hk
      omega

/-- Later tokens have greater offsets. -/
theorem pairwise_lt (h : Located start cs tokens offsets) : offsets.Pairwise (· < ·) := by
  induction h with
  | finish _ => exact List.pairwise_singleton _ _
  | token _ hnext hs ih =>
    refine List.pairwise_cons.mpr ⟨fun k hk => ?_, ih⟩
    -- a lexeme is not empty, and all later ones begin behind it
    have hpos := List.length_pos_iff.mpr (ne_nil_of_next hnext)
    have := hs.start_le k hk
    omega

/-- The end mark stands at the end of the text. -/
theorem getLast?_offsets (h : Located start cs tokens offsets) :
    offsets.getLast? = some (start + cs.length) := by
  induction h with
  | finish _ => rfl
  | token _ _ _ ih =>
    rw [List.getLast?_cons, ih, List.length_append, List.length_append]
    simp [Nat.add_assoc]

/-- No token stands behind the end of the text. -/
theorem le_end (h : Located start cs tokens offsets) : ∀ k ∈ offsets, k ≤ start + cs.length := by
  induction h with
  | finish _ => simp
  | token _ _ _ ih =>
    intro k hk
    simp only [List.length_append]
    rcases List.mem_cons.mp hk with rfl | hk
    · omega
    · have := ih k hk
      omega

/-- A gap in front moves what is located behind it. -/
theorem of_next (h : Next us none rest)
    (hs : Located (start + us.length) rest tokens offsets) :
    Located start (us ++ rest) tokens offsets := by
  cases hs with
  | @finish _ gap hgap =>
    rw [Nat.add_assoc, ← List.length_append]
    exact .finish (.cons (by rwa [List.append_nil]) hgap)
  | @token _ gap vs rest token tokens offsets hgap hnext hs =>
    have hlength : start + us.length + gap.length = start + (us ++ gap).length := by
      rw [List.length_append, Nat.add_assoc]
    rw [hlength] at hs ⊢
    rw [← List.append_assoc]
    exact .token (.cons h hgap) hnext hs

end Located

/-- What a token stands for, without its place. -/
def content (t : Token) : TokenKind × String := (t.kind, t.text)

/-- The tokens of any text stand at offsets in it. -/
theorem exists_located (before cs : List Char) :
    let tokens := Token.place (Position.first.advance before) (cut cs)
    ∃ offsets, Located before.length cs (tokens.map content) offsets ∧
      tokens.map Token.position = offsets.map (placeAt (before ++ cs)) := by
  induction cs using next_induction generalizing before with
  | nil =>
    refine ⟨[before.length], ?_, ?_⟩
    · rw [cut_nil]
      exact .finish .nil
    · rw [cut_nil, List.map_singleton, Position.placeAt_length]
      rfl
  | next us token? rest h ih =>
    obtain ⟨offsets, hlocated, hplaces⟩ := ih (before ++ us)
    rw [List.length_append, Position.advance_append] at hlocated
    rw [List.append_assoc, Position.advance_append] at hplaces
    rw [cut_of_next h]
    cases token? with
    | none => exact ⟨offsets, .of_next h hlocated, hplaces⟩
    | some token =>
      refine ⟨before.length :: offsets, .token .nil h hlocated, ?_⟩
      rw [List.map_cons, Position.placeAt_length, ← hplaces]
      rfl

/-! ## Open comments -/

/-- Reading a text with so many comments open comes to a point in front of `rest`, where `depth'` of
them are open. -/
inductive ReachesDepth : Nat → List Char → Nat → List Char → Prop
  | refl (depth : Nat) (cs : List Char) : ReachesDepth depth cs depth cs
  | opening {depth depth' : Nat} {cs rest : List Char}
      (h : ReachesDepth (depth + 2) cs depth' rest) :
      ReachesDepth (depth + 1) ('/' :: '*' :: cs) depth' rest
  | closing {depth depth' : Nat} {cs rest : List Char} (h : ReachesDepth depth cs depth' rest) :
      ReachesDepth (depth + 1) ('*' :: '/' :: cs) depth' rest
  | other {depth depth' : Nat} {c : Char} {cs rest : List Char}
      (hopening : ¬ ['/', '*'] <+: c :: cs)
      (hclosing : ¬ ['*', '/'] <+: c :: cs) (h : ReachesDepth (depth + 1) cs depth' rest) :
      ReachesDepth (depth + 1) (c :: cs) depth' rest

/-- To open a comment takes two characters. -/
theorem ReachesDepth.measure_le (h : ReachesDepth depth cs depth' rest) :
    2 * depth' + rest.length ≤ 2 * depth + cs.length := by
  induction h with
  | refl => exact Nat.le_refl _
  | opening _ ih => simp only [List.length_cons]; omega
  | closing _ ih => simp only [List.length_cons]; omega
  | other _ _ _ ih => simp only [List.length_cons]; omega

theorem ReachesDepth.exists_commentTail (h : ReachesDepth depth cs 0 rest) :
    ∃ tail, commentTail? depth cs = some tail ∧ cs = tail ++ rest := by
  generalize hzero : 0 = depth' at h
  induction h with
  | refl depth cs =>
    subst hzero
    exact ⟨[], by rw [commentTail?], rfl⟩
  | opening _ ih =>
    obtain ⟨tail, htail, rfl⟩ := ih hzero
    exact ⟨'/' :: '*' :: tail, by rw [commentTail?, htail]; rfl, rfl⟩
  | closing _ ih =>
    obtain ⟨tail, htail, rfl⟩ := ih hzero
    exact ⟨'*' :: '/' :: tail, by rw [commentTail?, htail]; rfl, rfl⟩
  | @other _ _ c _ _ hopening hclosing _ ih =>
    obtain ⟨tail, htail, rfl⟩ := ih hzero
    exact ⟨c :: tail, by rw [commentTail?_other hopening hclosing, htail]; rfl, rfl⟩

theorem reachesDepth_of_commentTail {tail : List Char} (htail : commentTail? depth cs = some tail)
    (hcs : cs = tail ++ rest) : ReachesDepth depth cs 0 rest := by
  -- a mark that is not one for `commentTail?` is none in the text
  have hnot {a b c : Char} {cs : List Char} (h : ∀ ds, c = a → cs = b :: ds → False) :
      ¬ [a, b] <+: c :: cs := by
    rintro ⟨ds, hds⟩
    obtain ⟨hc, hcs⟩ := List.cons.inj hds
    exact h ds hc.symm hcs.symm
  fun_induction commentTail? depth cs generalizing tail with
  | case1 cs =>
    obtain rfl := Option.some.inj htail
    obtain rfl : cs = rest := hcs
    exact .refl 0 cs
  | case2 => cases htail
  | case3 depth cs ih =>
    obtain ⟨tail, htail', rfl⟩ := Option.map_eq_some_iff.mp htail
    exact .opening (ih htail' (List.cons.inj (List.cons.inj hcs).2).2)
  | case4 depth cs ih =>
    obtain ⟨tail, htail', rfl⟩ := Option.map_eq_some_iff.mp htail
    exact .closing (ih htail' (List.cons.inj (List.cons.inj hcs).2).2)
  | case5 depth c cs hopening hclosing ih =>
    obtain ⟨tail, htail', rfl⟩ := Option.map_eq_some_iff.mp htail
    exact .other (hnot hopening) (hnot hclosing) (ih htail' (List.cons.inj hcs).2)

/-- A block comment ends where the reading of it comes to have no comment open. -/
theorem reachesDepth_zero_iff : ReachesDepth depth cs 0 rest ↔
    ∃ tail, commentTail? depth cs = some tail ∧ cs = tail ++ rest :=
  ⟨ReachesDepth.exists_commentTail, fun ⟨_, htail, hcs⟩ => reachesDepth_of_commentTail htail hcs⟩

/-! ## Whole texts -/

/-- The tokens of a text stand where their lexemes begin, and their places are those of the offsets.
No count that leads to a place or to the end of a comment needs more than 32 bits. -/
theorem tokenize_located (text : String) (h : text.length < twoTo 32 - 1) :
    (∃ offsets : List Nat,
      Located 0 text.toList ((tokenize text).map content) offsets ∧
      offsets.Pairwise (· < ·) ∧ offsets.getLast? = some text.length ∧
      (tokenize text).map Token.position = offsets.map (placeAt text.toList)) ∧
    (tokenize text).Pairwise (fun t t' => t.position.Precedes t'.position) ∧
    (∀ us, us <+: text.toList → (Position.first.advance us).line < twoTo 32 ∧
      (Position.first.advance us).column < twoTo 32) ∧
    ∀ cs, '/' :: '*' :: cs <:+ text.toList →
      (∀ rest, ReachesDepth 1 cs 0 rest ↔
        ∃ tail, commentTail? 1 cs = some tail ∧ cs = tail ++ rest) ∧
      ∀ depth rest, ReachesDepth 1 cs depth rest → depth < twoTo 31 := by
  have h32 : twoTo 32 = 4294967296 := rfl
  have h31 : twoTo 31 = 2147483648 := rfl
  have hlength : text.toList.length = text.length := String.length_toList
  obtain ⟨offsets, hlocated, hplaces⟩ := exists_located [] text.toList
  rw [List.length_nil] at hlocated
  have hend : ∀ k ∈ offsets, k ≤ text.toList.length := by simpa using hlocated.le_end
  refine ⟨⟨offsets, hlocated, hlocated.pairwise_lt, ?_, hplaces⟩, ?_, ?_, ?_⟩
  · rw [hlocated.getLast?_offsets, Nat.zero_add, hlength]
  · refine List.pairwise_map.mp ?_
    rw [show (tokenize text).map Token.position = offsets.map (placeAt text.toList) from hplaces]
    exact List.pairwise_map.mpr (hlocated.pairwise_lt.imp_of_mem fun _ hk hjk =>
      Position.placeAt_precedes hjk (hend _ hk))
  · intro us hus
    obtain ⟨hline, hcolumn⟩ := Position.line_column_advance_le us
    have := hus.length_le
    omega
  · intro cs hcs
    refine ⟨fun rest => reachesDepth_zero_iff, fun depth rest h => ?_⟩
    have hmeasure := h.measure_le
    have := hcs.length_le
    simp only [List.length_cons] at this
    omega

/-- A comment in a comment, a string of two lines, and a comment that is never closed. -/
def unclosed : String := "a /* /**/ */ 'x\ny' /*\n"

/-- A text that ends within a comment: the token for it stands where the comment opens. -/
theorem unclosed_located :
    unclosed.length < twoTo 32 - 1 ∧
    (∃ offsets : List Nat,
      Located 0 unclosed.toList ((tokenize unclosed).map content) offsets ∧
      offsets.Pairwise (· < ·) ∧ offsets.getLast? = some unclosed.length ∧
      (tokenize unclosed).map Token.position = offsets.map (placeAt unclosed.toList)) ∧
    (tokenize unclosed).Pairwise (fun t t' => t.position.Precedes t'.position) ∧
    (∀ us, us <+: unclosed.toList → (Position.first.advance us).line < twoTo 32 ∧
      (Position.first.advance us).column < twoTo 32) ∧
    ∀ cs, '/' :: '*' :: cs <:+ unclosed.toList →
      (∀ rest, ReachesDepth 1 cs 0 rest ↔
        ∃ tail, commentTail? 1 cs = some tail ∧ cs = tail ++ rest) ∧
      ∀ depth rest, ReachesDepth 1 cs depth rest → depth < twoTo 31 :=
  ⟨by decide, tokenize_located unclosed (by decide)⟩

example : (tokenize unclosed).map Token.position = [⟨1, 1⟩, ⟨1, 14⟩, ⟨2, 4⟩, ⟨3, 1⟩] := by
  decide +kernel

end Lexeme

end MiniSql
