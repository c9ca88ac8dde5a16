import MiniSql.Proofs.Placing
import MiniSql.Proofs.Shapes

/-!
# The lexer takes the longest lexeme

Nothing of any shape that a text begins with is longer than the lexeme that is cut off there, and
what is as long has the same token (`fits_scan`, one case for each shape). So a lexeme is what
`Next` describes (`next_iff`), a text divides in one way (`divided_iff`), and `tokenize` lists the
tokens of this division (`tokenize_divides`).
-/

namespace MiniSql.Lexeme

variable {c : Char} {cs us rest : List Char} {token? : Option (TokenKind × String)}

/-! ## No shape is longer than the lexeme -/

/-- A lexeme is read as its first characters tell. -/
theorem scan_of_tells {o : Opening} (h : o.Tells c cs.head?) : scan c cs = o.lexeme c cs := by
  rw [scan_eq_lexeme, opening_eq_iff.mpr h]

theorem fits_spelled {kind : TokenKind} {text : String} (h : text ∈ kind.spellings)
    (htext : text.toList ++ rest = c :: cs) :
    Fits text.toList (some (kind, text)) (scan c cs) := by
  have hofList : String.ofList text.toList = text := String.ofList_toList
  obtain ⟨a, ha, ⟨hchars, hsingle⟩ | ⟨b, hchars, hpair⟩⟩ := spellings_cases h
  · rw [hchars] at htext hofList ⊢
    obtain ⟨rfl, -⟩ := List.cons.inj htext
    rw [scan_of_mem_openers ha]
    rcases mark_cases a cs with ⟨d, ds, kind, -, -, hmark⟩ | ⟨-, hmark⟩
    · rw [hmark]
      exact ⟨by simp [verbatim, token], fun hlen => by simp [verbatim, token] at hlen⟩
    · rw [hmark, single, hsingle]
      exact ⟨Nat.le_refl _, fun _ => by rw [← hofList]; rfl⟩
  · rw [hchars] at htext hofList ⊢
    obtain ⟨rfl, rfl⟩ := List.cons.inj htext
    have hmark : mark a (b :: rest) = verbatim kind [a, b] := by simp [mark, hpair]
    rw [scan_of_mem_openers ha]
    refine ⟨?_, fun _ => ?_⟩
    · exact Nat.le_of_eq (congrArg (·.source.length) hmark.symm)
    · rw [← hofList]
      exact congrArg token? hmark.symm

theorem fits_name (hus : ∀ d ∈ us, Text.continuesName d = true) (rest : List Char) :
    Fits us (some (nameKind (String.ofList us), String.ofList us)) (name (us ++ rest)) := by
  rw [name, List.takeWhile_append_of_pos hus]
  refine ⟨by simp [token], fun hlen => ?_⟩
  have hmore : rest.takeWhile Text.continuesName = [] := by simpa [token] using hlen
  simp [token, hmore]

/-- A text that begins with a bare name is read at least as far as the name. -/
theorem fits_bare {kind : TokenKind} (h : IsBare us) (hkind : nameKind (String.ofList us) = kind)
    (hus : us ++ rest = c :: cs) :
    Fits us (some (kind, String.ofList us)) (scan c cs) := by
  rw [scan_eq_lexeme, opening_of_bare h hus]
  show Fits us _ (name (c :: cs))
  rw [← hus, ← hkind]
  refine fits_name ?_ rest
  cases h with
  | mk hc hs => exact List.forall_mem_cons.mpr ⟨Text.continuesName_of_startsName hc, hs⟩

/-- A text that begins with a number literal is read at least as far as the literal. -/
theorem fits_decimal (h : IsDecimal us) (hus : us ++ rest = c :: cs) :
    Fits us (some (.number, String.ofList us)) (scan c cs) := by
  obtain ⟨hminus, hwhole, hpart, hexponent⟩ := h
  rename_i minus whole part exponent
  rw [List.append_assoc, List.append_assoc, List.append_assoc] at hus
  rw [(opening_of_decimal hminus hwhole hus).2, ← List.append_assoc minus,
    ← List.append_assoc (minus ++ whole)]
  cases hexponent with
  | absent =>
    rw [List.append_nil, List.nil_append]
    exact fits_plain hwhole hpart minus rest
  | present hmark hsign hds =>
    rw [List.cons_append, number_eq_tail_of_mark hwhole hpart hmark]
    exact fits_exponent hmark hsign hds _ rest

/-- So is one that begins with a number whose exponent has no digits. -/
theorem fits_isBroken (h : IsBroken us) (hus : us ++ rest = c :: cs) :
    Fits us (some (.invalid, "invalid number literal")) (scan c cs) := by
  obtain ⟨hminus, hwhole, hpart, hmark, hsign⟩ := h
  rename_i minus whole part sign mark
  rw [List.append_assoc, List.append_assoc, List.append_assoc] at hus
  rw [(opening_of_decimal hminus hwhole hus).2, ← List.append_assoc minus,
    ← List.append_assoc (minus ++ whole), List.cons_append,
    number_eq_tail_of_mark hwhole hpart hmark]
  exact fits_broken hmark hsign _ rest

section Quoted

variable {kind : TokenKind} {mark : Char} {missing : String} (body rest : List Char)

/-- A quoted text is read at least up to its closing mark. -/
theorem fits_quote :
    Fits (Text.quote mark body) (some (kind, String.ofList body))
      (quoted kind mark missing (Text.double mark body ++ [mark] ++ rest)) := by
  rw [List.append_assoc, List.singleton_append]
  unfold quoted
  cases hbody : Text.body? mark (Text.double mark body ++ mark :: rest) with
  | none =>
    refine ⟨by simp [Text.quote, invalid, token], fun hlen => ?_⟩
    -- were nothing left behind the body, it would be closed
    have hrest : rest = [] := by simpa [Text.quote, invalid, token] using hlen
    rw [hrest, Text.body?_double mark body (by simp)] at hbody
    cases hbody
  | some found =>
    obtain ⟨body', rest'⟩ := found
    obtain ⟨heq, hmark⟩ := Text.eq_double_of_body? hbody
    obtain ⟨more, rfl⟩ := Text.prefix_of_double_append heq hmark
    refine ⟨by simp [Text.quote, token, Text.double_append], fun hlen => ?_⟩
    have hmore : Text.double mark more = [] := by
      simpa [Text.quote, token, Text.double_append] using hlen
    have hnil : more = [] := by
      cases more with
      | nil => rfl
      | cons d ds =>
        rw [Text.double] at hmore
        split at hmore <;> cases hmore
    simp [token, hnil]

/-- A quoted text without a closing mark is read up to the end. -/
theorem fits_openQuote :
    Fits (mark :: Text.double mark body) (some (.invalid, missing))
      (quoted kind mark missing (Text.double mark body ++ rest)) := by
  unfold quoted
  cases hbody : Text.body? mark (Text.double mark body ++ rest) with
  | none => exact ⟨by simp [invalid, token], fun _ => rfl⟩
  | some found =>
    obtain ⟨body', rest'⟩ := found
    obtain ⟨heq, hmark⟩ := Text.eq_double_of_body? hbody
    obtain ⟨more, rfl⟩ := Text.prefix_of_double_append heq hmark
    have hlt : (mark :: Text.double mark body).length <
        (Text.quote mark (body ++ more)).length := by
      simp only [Text.quote, Text.double_append, List.length_cons, List.length_append]
      omega
    exact ⟨Nat.le_of_lt hlt, fun hlen => absurd hlen (Nat.ne_of_lt hlt)⟩

end Quoted

/-- A comment that never closes is read up to the end. -/
theorem fits_openComment (h : ∀ us, us <+: cs → ¬ ClosesComments 1 us) (rest : List Char) :
    Fits ('/' :: '*' :: cs) (some (.invalid, "unterminated block comment"))
      (blockComment (cs ++ rest)) := by
  unfold blockComment
  cases htail : commentTail? 1 (cs ++ rest) with
  | none => exact ⟨by simp [invalid, token], fun _ => rfl⟩
  | some tail =>
    obtain ⟨more, heq, hcloses⟩ := commentTail?_eq_some_iff.mp htail
    have hlt : cs.length < tail.length := by
      refine Nat.lt_of_not_le fun hle => h tail ?_ hcloses
      exact List.prefix_of_prefix_length_le ⟨more, heq.symm⟩ (List.prefix_append cs rest) hle
    refine ⟨by simpa [gap] using Nat.le_of_lt hlt, fun hlen => ?_⟩
    have hsame : cs.length = tail.length := by simpa [gap] using hlen
    exact absurd hsame (Nat.ne_of_lt hlt)

/-- No lexeme of any class is longer than the one that is cut off. -/
theorem fits_scan (h : Shape us token?) (hus : us ++ rest = c :: cs) :
    Fits us token? (scan c cs) := by
  cases h with
  | mark h => exact fits_spelled h hus
  | trueLiteral h htrue => exact fits_bare h ((nameKind_congr htrue).trans (by decide)) hus
  | falseLiteral h hfalse => exact fits_bare h ((nameKind_congr hfalse).trans (by decide)) hus
  | name h htrue hfalse => exact fits_bare h (by simp [nameKind, htrue, hfalse]) hus
  | number h => exact fits_decimal h hus
  | brokenNumber h => exact fits_isBroken h hus
  | blank h hne =>
    obtain ⟨rfl, -⟩ := List.cons.inj hus
    rw [scan_of_tells (o := .blank) ⟨h, hne⟩]
    exact ⟨Nat.le_refl _, fun _ => rfl⟩
  | lineBreak =>
    obtain ⟨rfl, -⟩ := List.cons.inj hus
    rw [scan_of_tells (o := .lineBreak) rfl]
    exact ⟨Nat.le_refl _, fun _ => rfl⟩
  | @lineComment ds h =>
    obtain ⟨rfl, rfl⟩ := List.cons.inj hus
    have hstop : ∀ d ∈ '-' :: ds, (d != '\n') = true := by
      refine List.forall_mem_cons.mpr ⟨by decide, fun d hd => ?_⟩
      exact bne_iff_ne.mpr fun heq => h (heq ▸ hd)
    rw [scan_of_tells (o := .lineComment) ⟨rfl, rfl⟩]
    show Fits _ none (gap ('-' :: lineComment ('-' :: ds ++ rest)))
    rw [lineComment, List.takeWhile_append_of_pos hstop]
    exact ⟨by simp [gap], fun _ => rfl⟩
  | @blockComment ds h =>
    obtain ⟨rfl, rfl⟩ := List.cons.inj hus
    rw [scan_of_tells (o := .blockComment) ⟨rfl, rfl⟩]
    show Fits _ none (blockComment (ds ++ rest))
    rw [blockComment, commentTail?_append h]
    exact ⟨Nat.le_refl _, fun _ => rfl⟩
  | openComment h =>
    obtain ⟨rfl, rfl⟩ := List.cons.inj hus
    rw [scan_of_tells (o := .blockComment) ⟨rfl, rfl⟩]
    exact fits_openComment h rest
  | quotedName body =>
    obtain ⟨rfl, rfl⟩ := List.cons.inj hus
    rw [scan_of_tells (o := .quotedName) rfl]
    exact fits_quote body rest
  | openName body =>
    obtain ⟨rfl, rfl⟩ := List.cons.inj hus
    rw [scan_of_tells (o := .quotedName) rfl]
    exact fits_openQuote body rest
  | string body =>
    obtain ⟨rfl, rfl⟩ := List.cons.inj hus
    rw [scan_of_tells (o := .string) rfl]
    exact fits_quote body rest
  | openString body =>
    obtain ⟨rfl, rfl⟩ := List.cons.inj hus
    rw [scan_of_tells (o := .string) rfl]
    exact fits_openQuote body rest

/-! ## The next lexeme -/

/-- What a text begins with is what is cut off. -/
theorem next_iff (hus : us ++ rest = c :: cs) :
    Next us token? rest ↔ us = (scan c cs).source ∧ token? = (scan c cs).token? := by
  obtain ⟨behind, hscan⟩ := scan_prefix c cs
  have hlongest : ∀ vs token?, Shape vs token? → vs <+: c :: cs →
      vs.length ≤ (scan c cs).source.length := fun vs token? h ⟨_, hvs⟩ => (fits_scan h hvs).1
  have hsame {vs : List Char} (hvs : vs <+: c :: cs)
      (hlen : vs.length = (scan c cs).source.length) : vs = (scan c cs).source :=
    (List.prefix_of_prefix_length_le hvs ⟨behind, hscan⟩ (Nat.le_of_eq hlen)).eq_of_length hlen
  refine ⟨fun h => ?_, ?_⟩
  · cases h with
    | longest h hmax =>
      rw [hus] at hmax
      rcases shape_scan_or c cs with hshape | ⟨-, hnone⟩
      · have hfits := fits_scan h hus
        have hlen := Nat.le_antisymm hfits.1 (hmax _ _ hshape ⟨behind, hscan⟩)
        exact ⟨hsame ⟨rest, hus⟩ hlen, hfits.2 hlen⟩
      · exact absurd ⟨rest, hus⟩ (hnone us token? h)
    | unexpected h =>
      obtain ⟨rfl, rfl⟩ := List.cons.inj hus
      rcases shape_scan_or _ _ with hshape | ⟨hscan', -⟩
      · exact absurd ⟨behind, hscan⟩ (h _ _ hshape)
      · rw [hscan']
        exact ⟨rfl, rfl⟩
  · rintro ⟨rfl, rfl⟩
    rcases shape_scan_or c cs with hshape | ⟨hscan', hnone⟩
    · exact .longest hshape (by rwa [hus])
    · rw [hscan'] at hus ⊢
      obtain ⟨-, rfl⟩ := List.cons.inj hus
      exact .unexpected hnone

theorem ne_nil_of_shape (h : Shape us token?) : us ≠ [] := by
  cases h with
  | mark h =>
    obtain ⟨a, -, ⟨hchars, -⟩ | ⟨b, hchars, -⟩⟩ := spellings_cases h <;> simp [hchars]
  | trueLiteral h _ | falseLiteral h _ | name h _ _ =>
    cases h
    exact List.cons_ne_nil _ _
  | number h =>
    cases h with
    | mk _ hwhole _ _ => simp [hwhole.1]
  | brokenNumber h =>
    cases h
    simp
  | _ => exact List.cons_ne_nil _ _

theorem ne_nil_of_next (h : Next us token? rest) : us ≠ [] := by
  cases h with
  | longest h _ => exact ne_nil_of_shape h
  | unexpected _ => exact List.cons_ne_nil _ _

/-- A longest lexeme is cut off first. -/
theorem cut_of_next (h : Next us token? rest) :
    cut (us ++ rest) = ⟨us, token?⟩ :: cut rest := by
  obtain ⟨c, cs, rfl⟩ := List.exists_cons_of_ne_nil (ne_nil_of_next h)
  obtain ⟨hsource, rfl⟩ := (next_iff rfl).mp h
  rw [cut_of_scan rfl hsource.symm, hsource]
  rfl

/-- A text is built from its end, by putting lexemes in front. -/
@[elab_as_elim]
theorem next_induction {motive : List Char → Prop} (nil : motive [])
    (next : ∀ us token? rest, Next us token? rest → motive rest → motive (us ++ rest))
    (cs : List Char) : motive cs := by
  induction hn : cs.length using Nat.strongRecOn generalizing cs with
  | _ n ih =>
    cases cs with
    | nil => exact nil
    | cons c cs =>
      have hscan := scan_append_drop c cs
      have hlen := congrArg List.length hscan
      have hpos := List.length_pos_iff.mpr (scan_source_ne_nil c cs)
      rw [← hscan]
      refine next _ _ _ ((next_iff hscan).mpr ⟨rfl, rfl⟩) (ih _ ?_ _ rfl)
      rw [List.length_append, List.length_cons] at hlen
      rw [List.length_cons] at hn
      omega

/-! ## Whole texts -/

/-- The tokens of a text, without their places. -/
def tokensOf (cs : List Char) : List (TokenKind × String) := (cut cs).filterMap Lexeme.token?

theorem tokensOf_of_next (h : Next us token? rest) :
    tokensOf (us ++ rest) = token?.toList ++ tokensOf rest := by
  rw [tokensOf, cut_of_next h, List.filterMap_cons]
  cases token? <;> rfl

/-- Gaps yield no tokens. -/
theorem tokensOf_of_gap {gap : List Char} (h : Gap gap rest) :
    tokensOf (gap ++ rest) = tokensOf rest := by
  induction h with
  | nil => rfl
  | cons h _ ih =>
    rw [List.append_assoc, tokensOf_of_next h, ih]
    rfl

theorem divided_of_next {tokens : List (TokenKind × String)} (h : Next us none rest)
    (hrest : Divided rest tokens) : Divided (us ++ rest) tokens := by
  cases hrest with
  | @last gap hgap =>
    exact .last (.cons (by rwa [List.append_nil]) hgap)
  | more hgap hnext hs =>
    rw [← List.append_assoc]
    exact .more (.cons h hgap) hnext hs

/-- The lexemes that a text is cut into are a division of it. -/
theorem divided_tokensOf (cs : List Char) : Divided cs (tokensOf cs) := by
  induction cs using next_induction with
  | nil =>
    rw [tokensOf, cut_nil]
    exact .last .nil
  | next us token? rest h hrest =>
    rw [tokensOf_of_next h]
    cases token? with
    | none => exact divided_of_next h hrest
    | some token => exact .more .nil h hrest

/-- There is only one division into longest lexemes: the one that the scanner makes. -/
theorem divided_iff {cs : List Char} {tokens : List (TokenKind × String)} :
    Divided cs tokens ↔ tokens = tokensOf cs := by
  refine ⟨fun h => ?_, fun h => h ▸ divided_tokensOf cs⟩
  induction h with
  | last hgap =>
    have hgap' := tokensOf_of_gap hgap
    rw [List.append_nil] at hgap'
    rw [hgap', tokensOf, cut_nil]
    rfl
  | more hgap hnext _ ih =>
    rw [tokensOf_of_gap hgap, tokensOf_of_next hnext, ih]
    rfl

/-- The messages about lexemes that are never closed. -/
def unterminated : List String :=
  ["unterminated string literal", "unterminated quoted identifier", "unterminated block comment"]

/-- A stray character is no unterminated lexeme, by the messages. -/
theorem unexpected_notMem_unterminated (c : Char) :
    s!"unexpected character '{c}'" ∉ unterminated := by
  intro h
  -- the third letter tells
  have hletter : (s!"unexpected character '{c}'").toList[2]? = some 'e' := by
    show ("unexpected character '" ++ toString c ++ "'").toList[2]? = some 'e'
    rw [String.append_assoc, String.toList_append]
    rfl
  have hothers : ∀ message ∈ unterminated, message.toList[2]? = some 't' := by decide
  rw [hothers _ h] at hletter
  cases hletter

/-- What is never closed goes on to the end of the text: with one character more it would be closed,
or never closed as well. -/
theorem rest_eq_nil_of_unterminated {message : String}
    (h : Next us (some (.invalid, message)) rest) (hmessage : message ∈ unterminated) :
    rest = [] := by
  cases h with
  | unexpected _ => exact absurd hmessage (unexpected_notMem_unterminated _)
  | longest h hlongest =>
    cases rest with
    | nil => rfl
    | cons d ds =>
      have hmore {vs : List Char} {token? : Option (TokenKind × String)} (hvs : Shape vs token?)
          (heq : vs = us ++ [d]) : False := by
        have hlen := hlongest vs token? hvs (heq ▸ ⟨ds, by simp⟩)
        rw [heq, List.length_append, List.length_singleton] at hlen
        omega
      cases h with
      | mark h => nomatch h
      | brokenNumber _ => exact absurd hmessage (by decide)
      | openName body =>
        by_cases hd : d = '"'
        · exact (hmore (.quotedName body) (by rw [hd]; rfl)).elim
        · refine (hmore (.openName (body ++ [d])) ?_).elim
          simp [Text.double_append, Text.double, hd]
      | openString body =>
        by_cases hd : d = '\''
        · exact (hmore (.string body) (by rw [hd]; rfl)).elim
        · refine (hmore (.openString (body ++ [d])) ?_).elim
          simp [Text.double_append, Text.double, hd]
      | @openComment cs h =>
        by_cases hcloses : ClosesComments 1 (cs ++ [d])
        · exact (hmore (.blockComment hcloses) rfl).elim
        · refine (hmore (.openComment fun vs hvs => ?_) rfl).elim
          rcases List.prefix_concat_iff.mp hvs with rfl | hvs
          · exact hcloses
          · exact h vs hvs

/-- An unterminated lexeme takes the rest of the text, so that it is the last one. -/
theorem last_of_unterminated {tokens before after : List (TokenKind × String)} {message : String}
    (h : Divided cs tokens) (htokens : tokens = before ++ (.invalid, message) :: after)
    (hmessage : message ∈ unterminated) : after = [] := by
  induction h generalizing before with
  | last _ => simp at htokens
  | more _ hnext hs ih =>
    cases before with
    | nil =>
      obtain ⟨rfl, rfl⟩ := List.cons.inj htokens
      obtain rfl := rest_eq_nil_of_unterminated hnext hmessage
      rw [divided_iff.mp hs, tokensOf, cut_nil]
      rfl
    | cons token before => exact ih (List.cons.inj htokens).2

theorem ne_finish_of_mem_tokensOf {token : TokenKind × String} (h : token ∈ tokensOf cs) :
    token.1 ≠ .finish := by
  obtain ⟨l, hl, htoken⟩ := List.mem_filterMap.mp h
  obtain ⟨c, ds, rfl⟩ := exists_scan_of_mem_cut hl
  obtain ⟨kind, text⟩ := token
  rintro rfl
  exact kind_ne_finish_of_scan htoken

/-- The lexer implements the lexical grammar. The tokens of a text are those of its division, the
only one there is, with a single `finish` behind them. What is never closed takes the rest of the
text, so no other token comes behind it. -/
theorem tokenize_divides :
    (∀ text : String, ∃ tokens : List (TokenKind × String),
      (tokenize text).map (fun t => (t.kind, t.text)) = tokens ++ [(.finish, "")] ∧
      (∀ token ∈ tokens, token.1 ≠ .finish) ∧
      (∀ others, Divided text.toList others ↔ others = tokens) ∧
      ∀ before message after, tokens = before ++ (.invalid, message) :: after →
        message ∈ unterminated → after = []) ∧
    ∀ us token? rest, Next us token? rest →
      us ≠ [] ∧ ∀ message ∈ unterminated, token? = some (.invalid, message) → rest = [] := by
  refine ⟨fun text => ⟨tokensOf text.toList, ?_, fun _ => ne_finish_of_mem_tokensOf,
    fun _ => divided_iff, fun before message after h hmessage => ?_⟩, ?_⟩
  · rw [tokenize, Token.place_eq_placed, List.map_append, Token.map_placed]
    rfl
  · exact last_of_unterminated (divided_tokensOf text.toList) h hmessage
  · rintro us token? rest h
    refine ⟨ne_nil_of_next h, ?_⟩
    rintro message hmessage rfl
    exact rest_eq_nil_of_unterminated h hmessage

end MiniSql.Lexeme
