import MiniSql.Proofs.BadNumber
import MiniSql.Proofs.Derivation
import MiniSql.Proofs.Equality
import MiniSql.Proofs.FirstError
import MiniSql.Proofs.Joining
import MiniSql.Proofs.ReadBack
import MiniSql.Proofs.Shapes

/-!
# Number tokens are numbers

Two functions know what a number looks like: one cuts number tokens off a text, the other reads
their texts as numbers. The first knows fewer forms, and the second reads them all
(`Numeral.exists_read?_of_isDecimal`); the words for infinities and `nan` are not among them.

So in a text every number token is a number (`number_tokens_read`). The parser's complaint about a
bad number never arises, and the programs that texts hold are free of `nan`.
-/

namespace MiniSql

variable {cs exponent part : List Char} {text : String}

/-! ## Decimal notation is read -/

namespace Binary64

/-- No decimal is read as NaN. -/
theorem ofDecimal_ne_nan (negative : Bool) (digits : Nat) (exponent : Int) :
    ofDecimal negative digits exponent ≠ .nan := by
  unfold ofDecimal
  split <;> nofun

end Binary64

namespace Numeral

theorem exists_exponent? (h : IsExponent exponent) : ∃ size, exponent? exponent = some size := by
  cases h with
  | absent => exact ⟨0, rfl⟩
  | @present mark front ds hmark hsign hds =>
    have hfront : (sign (front ++ ds)).2 = ds := by
      obtain ⟨d, ds, rfl, hd⟩ := Lexeme.head_of_isDigits hds
      simp only [List.mem_cons, List.not_mem_nil, or_false] at hsign
      rcases hsign with rfl | rfl | rfl
      · rw [List.nil_append, sign_of_isDigit hd]
      · rfl
      · rfl
    have hdigits : ds ≠ [] ∧ ds.all Char.isDigit = true := ⟨hds.1, List.all_eq_true.mpr hds.2⟩
    unfold exponent?
    simp only [hfront]
    rw [if_pos (List.mem_pair.mp hmark), if_pos hdigits]
    exact ⟨_, rfl⟩

theorem head_of_isExponent (h : IsExponent exponent) :
    ∀ d ∈ exponent.head?, d.isDigit = false ∧ d ≠ '.' := by
  have hends : Lexeme.EndsNumber [] := nofun
  have hhead := Lexeme.head_exponent h hends
  rwa [List.append_nil] at hhead

theorem snd_fraction_append (hpart : IsFraction part) (hexponent : IsExponent exponent) :
    (fraction (part ++ exponent)).2 = exponent := by
  have hhead := head_of_isExponent hexponent
  cases hpart with
  | absent =>
    unfold fraction
    split
    · next heq =>
      rw [List.nil_append] at heq
      rw [heq] at hhead
      exact absurd rfl (hhead '.' rfl).2
    · rfl
  | present hds => exact Lexeme.dropWhile_append_of_stop hds.2 fun d hd => (hhead d hd).1

/-- Digits with a fraction and an exponent are read as a decimal. -/
theorem exists_decimal? {whole : List Char} (hwhole : IsDigits whole) (hpart : IsFraction part)
    (hexponent : IsExponent exponent) (negative : Bool) :
    ∃ digits size, decimal? negative (whole ++ (part ++ exponent)) =
      some (.ofDecimal negative digits size) := by
  have hstop : ∀ d ∈ (part ++ exponent).head?, d.isDigit = false :=
    Lexeme.head_fraction hpart fun d hd => (head_of_isExponent hexponent d hd).1
  obtain ⟨size, hsize⟩ := exists_exponent? hexponent
  unfold decimal?
  rw [Lexeme.takeWhile_append_of_stop hwhole.2 hstop,
    Lexeme.dropWhile_append_of_stop hwhole.2 hstop]
  dsimp only
  rw [snd_fraction_append hpart hexponent, hsize,
    if_neg (List.append_ne_nil_of_left_ne_nil hwhole.1 _)]
  exact ⟨_, _, rfl⟩

/-- Whatever is in decimal notation is read, and as a number. -/
theorem exists_read?_of_isDecimal (h : IsDecimal cs) :
    ∃ value, read? (String.ofList cs) = some value ∧ value ≠ .nan := by
  cases h with
  | @mk minus whole part exponent hminus hwhole hpart hexponent =>
    obtain ⟨d, ds, rfl, hd⟩ := Lexeme.head_of_isDigits hwhole
    have hsign : ∃ negative, sign (minus ++ (d :: ds ++ (part ++ exponent))) =
        (negative, d :: ds ++ (part ++ exponent)) := by
      rcases List.mem_pair.mp hminus with rfl | rfl
      · exact ⟨false, sign_of_isDigit hd _⟩
      · exact ⟨true, rfl⟩
    obtain ⟨negative, hsign⟩ := hsign
    obtain ⟨digits, size, hvalue⟩ := exists_decimal? hwhole hpart hexponent negative
    refine ⟨_, ?_, Binary64.ofDecimal_ne_nan negative digits size⟩
    unfold read?
    rw [String.toList_ofList, hsign]
    dsimp only
    rw [hvalue, List.cons_append, word?_of_isDigit hd, Option.none_or]

end Numeral

/-! ## Number tokens of a text -/

/-- Every number token of a text has the text of a number. -/
theorem exists_read?_of_mem_tokenize {t : Token} (h : t ∈ tokenize text) (ht : t.kind = .number) :
    ∃ value, Numeral.read? t.text = some value ∧ value ≠ .nan := by
  rw [tokenize, Token.place_eq_placed, List.mem_append] at h
  rcases h with hplaced | hfinish
  · obtain ⟨l, hl, htoken⟩ := exists_lexeme_of_mem_placed hplaced
    obtain ⟨c, cs, rfl⟩ := Lexeme.exists_scan_of_mem_cut hl
    rw [ht] at htoken
    rcases Lexeme.shape_scan_or c cs with hshape | ⟨hunexpected, -⟩
    · rw [htoken] at hshape
      generalize (Lexeme.scan c cs).source = us, t.text = written at hshape
      cases hshape with
      | number h => exact Numeral.exists_read?_of_isDecimal h
      | mark h => exact absurd h List.not_mem_nil
    · rw [hunexpected] at htoken
      cases htoken
  · obtain rfl := List.mem_singleton.mp hfinish
    cases ht

/-! ## Errors of a text -/

theorem mem_tokenize_of_mem_significant {t : Token} (h : t ∈ significant text) :
    t ∈ tokenize text := by
  rw [tokenize, Token.place_eq_placed]
  exact List.mem_append_left _ (List.mem_of_mem_filter h)

/-- Reading a text, the parser never calls a number bad. -/
theorem not_fails_badNumber (text : String) (rest : List Token) :
    ¬ Grammar.program.Fails (TokenStream.ofTokens (tokenize text)).tokens .badNumber rest := by
  intro h
  obtain ⟨t, us, rfl, ht, hnone⟩ := Grammar.unread_of_fails_program h
  rw [ofTokens_tokenize] at h
  have hmem : t ∈ significant text := h.suffix.subset List.mem_cons_self
  obtain ⟨value, hvalue, -⟩ :=
    exists_read?_of_mem_tokenize (mem_tokenize_of_mem_significant hmem) ht
  rw [hnone] at hvalue
  nomatch hvalue

/-- An error with words of its own is an invalid token, which has the words and the place. -/
theorem exists_invalid_of_stated {e : ParseError} {message : String} (h : parse text = .error e)
    (hstated : e.cause = .stated message) :
    ∃ t ∈ tokenize text, t.kind = .invalid ∧ t.text = message ∧ t.position = e.position := by
  obtain ⟨left, hrun⟩ :
      ∃ left, Grammar.program.run (.ofTokens (tokenize text)) = (.error e, left) :=
    ⟨_, Prod.ext h rfl⟩
  obtain ⟨c, hfails, -, rfl⟩ := Rule.fails_of_run hrun
  cases c with
  | badNumber => exact absurd hfails (not_fails_badNumber text _)
  | expected what =>
    change (Complaint.expected what).cause left = _ at hstated
    have hsuffix := hfails.suffix
    rw [ofTokens_tokenize] at hsuffix
    unfold Complaint.cause at hstated
    dsimp only at hstated
    split at hstated
    · next t us hleft =>
      split at hstated
      · next hkind =>
        have hmem : t ∈ significant text := hsuffix.subset (hleft ▸ List.mem_cons_self)
        refine ⟨t, mem_tokenize_of_mem_significant hmem, hkind,
          ParseError.Cause.stated.inj hstated, ?_⟩
        show t.position = left.here
        unfold TokenStream.here
        rw [hleft]
        rfl
      · nomatch hstated
    · nomatch hstated

/-- No error about an unexpected token has the words of a bad number. -/
theorem ParseError.text_unexpected_ne (expected found : String) (p : Position) :
    (⟨.unexpected expected found, p⟩ : ParseError).text ≠ "invalid number literal" := by
  intro h
  have hfirst : (s!"expected {expected}, found {found}").toList.head? = some 'e' := by
    simp [toString]
  have htext : s!"expected {expected}, found {found}" = "invalid number literal" := h
  rw [htext] at hfirst
  nomatch hfirst

/-! ## Numbers in programs -/

/-- Each word of what is written has its token. -/
theorem Word.exists_of_written {w : Word} {ws : List Word} {ts : List Token} (h : Written ws ts)
    (hw : w ∈ ws) : ∃ t ∈ ts, w.Means t := by
  induction h with
  | nil => nomatch hw
  | cons hmeans _ ih =>
    rcases List.mem_cons.mp hw with rfl | hw
    · exact ⟨_, List.mem_cons_self, hmeans⟩
    · obtain ⟨t, ht, hlater⟩ := ih hw
      exact ⟨t, List.mem_cons_of_mem _ ht, hlater⟩

/-- No text is a program with a `nan` in it. -/
theorem nan_notMem_numbers {p : Program} (h : parse text = .ok p) : .nan ∉ Program.numbers p := by
  intro hnan
  have hwritten := (Phrase.program_iff_written.mp (parse_eq_ok_iff.mp h)).2
  obtain ⟨t, ht, hkind, hread⟩ :=
    Word.exists_of_written hwritten (Program.number_mem_words hnan)
  obtain ⟨value, hvalue, hne⟩ :=
    exists_read?_of_mem_tokenize (mem_tokenize_of_mem_significant ht) hkind
  exact hne (Option.some.inj (hvalue.symm.trans hread))

/-- Number tokens are numbers. In every text each of them is read, and not as `nan`. So the parser
never calls a number bad: where its message says so, it is that of an invalid token, which stands at
the place of the error. And a program that was read holds no `nan`, and is equal to itself. -/
theorem number_tokens_read (text : String) :
    (∀ t ∈ tokenize text, t.kind = .number →
      ∃ value, Numeral.read? t.text = some value ∧ value ≠ .nan) ∧
    (∀ rest,
      ¬ Grammar.program.Fails (TokenStream.ofTokens (tokenize text)).tokens .badNumber rest) ∧
    (∀ e, parse text = .error e → e.text = "invalid number literal" →
      ∃ t ∈ tokenize text, t.kind = .invalid ∧ t.text = e.text ∧ t.position = e.position) ∧
    ∀ p, parse text = .ok p → .nan ∉ Program.numbers p ∧ Program.equals p p = true := by
  refine ⟨fun t => exists_read?_of_mem_tokenize, not_fails_badNumber text, fun e h htext => ?_,
    fun p h => ?_⟩
  · obtain ⟨cause, position⟩ := e
    cases cause with
    | unexpected expected found =>
      exact absurd htext (ParseError.text_unexpected_ne expected found position)
    | stated message => exact exists_invalid_of_stated h rfl
  · have hnan := nan_notMem_numbers h
    exact ⟨hnan, (Program.equals_self_iff p).mpr hnan⟩

/-- A negative number with a fraction and an exponent. -/
theorem numbers_read_in_insertions :
    let whole := "INSERT INTO t VALUES (-1.5e3);"
    let broken := "INSERT INTO t VALUES (1e+);"
    (∃ p, parse whole = .ok p ∧ Program.equals p p = true) ∧
      parse broken = .error ⟨.stated "invalid number literal", ⟨1, 23⟩⟩ ∧
      ∃ t ∈ tokenize broken, t.kind = .invalid ∧ t.position = ⟨1, 23⟩ := by
  intro whole broken
  have hbroken : parse broken = .error ⟨.stated "invalid number literal", ⟨1, 23⟩⟩ :=
    Grammar.parse_of_error? (by decide +kernel)
  obtain ⟨-, -, hinvalid, -⟩ := number_tokens_read broken
  obtain ⟨t, ht, hkind, -, hposition⟩ := hinvalid _ hbroken rfl
  refine ⟨?_, hbroken, t, ht, hkind, hposition⟩
  cases hwhole : parse whole with
  | ok p =>
    obtain ⟨-, -, -, hreads⟩ := number_tokens_read whole
    exact ⟨p, rfl, (hreads p hwhole).2⟩
  | error e =>
    have hnone : Grammar.error? whole = none := by decide +kernel
    unfold Grammar.error? at hnone
    rw [hwhole] at hnone
    nomatch hnone

end MiniSql
