import MiniSql.Proofs.Scanning

/-!
# Scanning words

`meaning_spelled`: a spelled word is cut off as one token that means it, provided that what follows
ends the word. It is shown class by class, and each class is told by the first character of the
spelling. Where a class takes as many characters as it can, the end of the word stops it.
-/

namespace MiniSql.Lexeme

variable {cs us rest : List Char} {c : Char}

/-! ## Quoted words -/

/-- The body of a quoted text ends at the first mark that is not doubled. -/
theorem body?_quote {mark : Char} {body : List Char} (hmark : rest.head? ≠ some mark) :
    Text.body? mark (Text.double mark body ++ [mark] ++ rest) = some (body, rest) := by
  rw [List.append_assoc]
  exact Text.body?_double mark body hmark

theorem scan_quote_string (body : List Char) (hrest : rest.head? ≠ some '\'') :
    scan '\'' (Text.double '\'' body ++ ['\''] ++ rest) =
      token .string (Text.quote '\'' body) (String.ofList body) := by
  rw [scan, if_neg (by decide), if_neg (by decide), if_neg (by simp), if_neg (by simp), if_pos rfl,
    quoted, body?_quote hrest]

theorem scan_quote_identifier (body : List Char) (hrest : rest.head? ≠ some '"') :
    scan '"' (Text.double '"' body ++ ['"'] ++ rest) =
      token .identifier (Text.quote '"' body) (String.ofList body) := by
  rw [scan, if_neg (by decide), if_neg (by decide), if_neg (by simp), if_neg (by simp),
    if_neg (by decide), if_pos rfl, quoted, body?_quote hrest]

/-! ## Numbers -/

theorem takeWhile_append_of_stop {p : Char → Bool} (hus : ∀ d ∈ us, p d = true)
    (hrest : ∀ d ∈ rest.head?, p d = false) : (us ++ rest).takeWhile p = us := by
  rw [List.takeWhile_append_of_pos hus]
  cases rest with
  | nil => rw [List.takeWhile_nil, List.append_nil]
  | cons d rest => rw [List.takeWhile_cons_of_neg (by rw [hrest d rfl]; decide), List.append_nil]

theorem dropWhile_append_of_stop {p : Char → Bool} (hus : ∀ d ∈ us, p d = true)
    (hrest : ∀ d ∈ rest.head?, p d = false) : (us ++ rest).dropWhile p = rest := by
  rw [List.dropWhile_append_of_pos hus]
  cases rest with
  | nil => rfl
  | cons d rest => rw [List.dropWhile_cons_of_neg (by rw [hrest d rfl]; decide)]

/-- What follows is neither a digit nor a point nor an exponent mark. -/
def EndsNumber (cs : List Char) : Prop :=
  ∀ c ∈ cs.head?, c.isDigit = false ∧ c ≠ '.' ∧ c ≠ 'e' ∧ c ≠ 'E'

theorem endsNumber_of_endsWord (h : EndsWord rest) : EndsNumber rest := by
  intro c hc
  cases rest with
  | nil => nomatch hc
  | cons d ds =>
    obtain rfl := Option.some_inj.mp hc
    refine ⟨?_, ne_of_endsWord h (by decide), ne_of_endsWord h (by decide),
      ne_of_endsWord h (by decide)⟩
    rw [Bool.eq_false_iff]
    intro hdigit
    have hd := toNat_of_endsWord h
    have := toNat_of_isDigit hdigit
    simp only [List.mem_cons, List.not_mem_nil, or_false] at hd
    omega

theorem head_of_isDigits {ds : List Char} (h : IsDigits ds) :
    ∃ d ds', ds = d :: ds' ∧ d.isDigit = true := by
  obtain ⟨hne, hdigits⟩ := h
  obtain ⟨d, ds', rfl⟩ := List.exists_cons_of_ne_nil hne
  exact ⟨d, ds', rfl, hdigits d List.mem_cons_self⟩

theorem head_exponent {exponent : List Char} (h : IsExponent exponent) (hrest : EndsNumber rest) :
    ∀ d ∈ (exponent ++ rest).head?, d.isDigit = false ∧ d ≠ '.' := by
  intro d hd
  cases h with
  | absent => exact ⟨(hrest d hd).1, (hrest d hd).2.1⟩
  | @present mark sign ds hmark _ _ =>
    obtain rfl : mark = d := Option.some_inj.mp hd
    rcases List.mem_pair.mp hmark with rfl | rfl
    · exact ⟨by decide, by decide⟩
    · exact ⟨by decide, by decide⟩

/-- A fraction is read as far as its digits go on. -/
theorem fraction_append {part : List Char} (h : IsFraction part)
    (hrest : ∀ d ∈ rest.head?, d.isDigit = false ∧ d ≠ '.') : fraction (part ++ rest) = part := by
  cases h with
  | absent =>
    rw [List.nil_append, fraction]
    intro d ds heq
    rw [heq] at hrest
    exact absurd rfl (hrest '.' rfl).2
  | present hds =>
    obtain ⟨d, ds, rfl, hd⟩ := head_of_isDigits hds
    have htake : (d :: ds ++ rest).takeWhile Char.isDigit = d :: ds :=
      takeWhile_append_of_stop hds.2 fun d hd => (hrest d hd).1
    show fraction ('.' :: d :: (ds ++ rest)) = _
    rw [fraction, if_pos hd]
    exact congrArg _ htake

theorem head_fraction {part : List Char} (h : IsFraction part)
    (hrest : ∀ d ∈ rest.head?, d.isDigit = false) :
    ∀ d ∈ (part ++ rest).head?, d.isDigit = false := by
  intro d hd
  cases h with
  | absent => exact hrest d hd
  | present _ =>
    obtain rfl : '.' = d := Option.some_inj.mp hd
    decide

theorem exponentMark_append {mark : Char} {sign ds : List Char} (hmark : mark ∈ ['e', 'E'])
    (hsign : sign ∈ [[], ['+'], ['-']]) (hds : IsDigits ds) :
    exponentMark (mark :: (sign ++ ds) ++ rest) = mark :: sign := by
  obtain ⟨d, ds, rfl, hd⟩ := head_of_isDigits hds
  -- without a sign, the digit behind the mark is none
  have hnone : Lexeme.sign (d :: ds ++ rest) = [] := by
    rw [List.cons_append, Lexeme.sign]
    · intro _ heq
      obtain rfl := (List.cons.inj heq).1
      exact absurd hd (by decide)
    · intro _ heq
      obtain rfl := (List.cons.inj heq).1
      exact absurd hd (by decide)
  have hbehind : Lexeme.sign (sign ++ (d :: ds ++ rest)) = sign := by
    simp only [List.mem_cons, List.not_mem_nil, or_false] at hsign
    rcases hsign with rfl | rfl | rfl
    · exact hnone
    · rfl
    · rfl
  rw [List.cons_append, List.append_assoc]
  rcases List.mem_pair.mp hmark with rfl | rfl
  · rw [exponentMark, hbehind]
  · rw [exponentMark, hbehind]

theorem exponentMark_eq_nil (h : EndsNumber rest) : exponentMark rest = [] := by
  cases rest with
  | nil => rfl
  | cons d ds =>
    obtain ⟨_, _, he, hE⟩ := h d rfl
    rw [exponentMark]
    · intro _ heq
      exact absurd (List.cons.inj heq).1 he
    · intro _ heq
      exact absurd (List.cons.inj heq).1 hE

/-- A number is read with all its parts, and no further. -/
theorem number_append {minus whole part exponent : List Char} (hwhole : IsDigits whole)
    (hpart : IsFraction part) (hexponent : IsExponent exponent) (hrest : EndsNumber rest) :
    number minus (whole ++ (part ++ (exponent ++ rest))) =
      verbatim .number (minus ++ (whole ++ (part ++ exponent))) := by
  -- each part is as long as it can be, since what follows cannot continue it
  have hhead := head_exponent hexponent hrest
  have hstop := head_fraction hpart fun d hd => (hhead d hd).1
  have hdrop : (whole ++ (part ++ (exponent ++ rest))).drop (whole.length + part.length) =
      exponent ++ rest := by
    rw [← List.append_assoc, ← List.length_append, List.drop_left]
  rw [number, takeWhile_append_of_stop hwhole.2 hstop, dropWhile_append_of_stop hwhole.2 hstop,
    fraction_append hpart hhead]
  simp only [hdrop]
  cases hexponent with
  | absent =>
    rw [List.nil_append, if_pos (exponentMark_eq_nil hrest), List.append_nil, List.append_assoc]
  | @present mark sign ds hmark hsign hds =>
    have hdigits : ((mark :: (sign ++ ds) ++ rest).drop (mark :: sign).length).takeWhile
        Char.isDigit = ds := by
      rw [List.cons_append, List.append_assoc, List.length_cons, List.drop_succ_cons,
        List.drop_left]
      exact takeWhile_append_of_stop hds.2 fun d hd => (hrest d hd).1
    rw [exponentMark_append hmark hsign hds, hdigits, if_neg (List.cons_ne_nil _ _),
      if_neg hds.1]
    simp only [List.append_assoc, List.cons_append]

/-! ## The class of a word by its first character -/

/-- The characters that open neither trivia nor a quoted word. -/
theorem scan_of_plain (hc : 33 ≤ c.toNat ∧ c.toNat ≤ 132)
    (hplain : c ≠ '-' ∧ c ≠ '/' ∧ c ≠ '\'' ∧ c ≠ '"') :
    scan c cs = if c.isDigit then number [] (c :: cs)
      else if Text.startsName c then name (c :: cs) else mark c cs := by
  obtain ⟨hminus, hslash, hsingle, hdouble⟩ := hplain
  have hbreak : c ≠ '\n' := ne_of_toNat_ne (by
    show c.toNat ≠ 10
    omega)
  have hblank : ¬ Text.isBlank c = true := by
    rw [isBlank_eq_false hc]
    decide
  rw [scan, if_neg hbreak, if_neg hblank, if_neg fun h => hminus h.1, if_neg fun h => hslash h.1,
    if_neg hsingle, if_neg hdouble]
  by_cases hdigit : c.isDigit
  · rw [if_pos hdigit, if_pos hdigit]
  · rw [if_neg hdigit, if_neg hdigit, if_neg fun h => hminus h.1]

theorem scan_of_isDigit (h : c.isDigit = true) : scan c cs = number [] (c :: cs) := by
  have hc := toNat_of_isDigit h
  have hplain : c ≠ '-' ∧ c ≠ '/' ∧ c ≠ '\'' ∧ c ≠ '"' := by
    refine ⟨?_, ?_, ?_, ?_⟩ <;> intro heq <;> subst heq <;> exact absurd h (by decide)
  rw [scan_of_plain (by omega) hplain, if_pos h]

theorem scan_minus (h : c.isDigit = true) : scan '-' (c :: cs) = number ['-'] (c :: cs) := by
  have hne : c ≠ '-' := fun heq => absurd (heq ▸ h) (by decide)
  rw [scan, if_neg (by decide), if_neg (by decide), if_neg (by simpa using hne), if_neg (by simp),
    if_neg (by decide), if_neg (by decide), if_neg (by decide), if_pos ⟨rfl, h⟩]

theorem scan_of_startsName (h : Text.startsName c = true) : scan c cs = name (c :: cs) := by
  have hc := toNat_of_startsName h
  have hdigit : ¬ c.isDigit = true := by
    intro hdigit
    have := toNat_of_isDigit hdigit
    omega
  have hplain : c ≠ '-' ∧ c ≠ '/' ∧ c ≠ '\'' ∧ c ≠ '"' := by
    refine ⟨?_, ?_, ?_, ?_⟩ <;> intro heq <;> subst heq <;> exact absurd h (by decide)
  rw [scan_of_plain (by omega) hplain, if_neg hdigit, if_pos h]

/-- A number literal with nothing behind it that goes on with it is one number token. -/
theorem meaning_decimal {text : String} (h : IsDecimal text.toList) (hrest : EndsWord rest) :
    meaning (text.toList ++ rest) = (.number, text) :: meaning rest := by
  have hends := endsNumber_of_endsWord hrest
  generalize htext : text.toList = cs at h
  obtain rfl : text = String.ofList cs := by rw [← htext, String.ofList_toList]
  cases h with
  | @mk minus whole part exponent hminus hwhole hpart hexponent =>
    have hnumber : number minus (whole ++ (part ++ (exponent ++ rest))) =
        verbatim .number (minus ++ (whole ++ (part ++ exponent))) :=
      number_append hwhole hpart hexponent hends
    obtain ⟨d, ds, rfl, hd⟩ := head_of_isDigits hwhole
    -- the sign belongs to the number because a digit follows it
    simp only [List.cons_append] at hnumber ⊢
    rcases List.mem_pair.mp hminus with rfl | rfl
    · refine meaning_of_scan_token ?_ (by decide)
      rw [scan_of_isDigit hd, List.append_assoc, List.append_assoc]
      exact hnumber
    · show meaning ('-' :: (d :: (ds ++ (part ++ exponent))) ++ rest) = _
      refine meaning_of_scan_token ?_ (by decide)
      rw [List.cons_append, scan_minus hd, List.append_assoc, List.append_assoc]
      exact hnumber

/-! ## Bare words -/

/-- A name is read as far as its characters go on. -/
theorem name_append (hus : ∀ d ∈ us, Text.continuesName d = true) (hrest : EndsWord rest) :
    name (us ++ rest) = token (nameKind (String.ofList us)) us (String.ofList us) := by
  have hstop : ∀ d ∈ rest.head?, Text.continuesName d = false := by
    intro d hd
    cases rest with
    | nil => nomatch hd
    | cons d' ds =>
      obtain rfl := Option.some_inj.mp hd
      have hd' := toNat_of_endsWord hrest
      rw [Bool.eq_false_iff]
      intro hname
      have := toNat_of_continuesName hname
      simp only [List.mem_cons, List.not_mem_nil, or_false] at hd'
      omega
  rw [name, takeWhile_append_of_stop hus hstop]

theorem nameKind_ne_lineBreak (text : String) : nameKind text ≠ .lineBreak := by
  rw [nameKind]
  split
  · decide
  · split <;> decide

/-- A bare name with nothing behind it that goes on with it is one token. -/
theorem meaning_bare {text : String} (h : IsBare text.toList) (hrest : EndsWord rest) :
    meaning (text.toList ++ rest) = (nameKind text, text) :: meaning rest := by
  generalize htext : text.toList = cs at h
  obtain rfl : text = String.ofList cs := by rw [← htext, String.ofList_toList]
  cases h with
  | @mk c cs hc hcs =>
    refine meaning_of_scan_token ?_ (nameKind_ne_lineBreak _)
    rw [scan_of_startsName hc, ← List.cons_append]
    refine name_append (fun d hd => ?_) hrest
    rcases List.mem_cons.mp hd with rfl | hd
    · exact Text.continuesName_of_startsName hc
    · exact hcs d hd

theorem isAlpha_of_isAlpha_toLower (h : c.toLower.isAlpha = true) : c.isAlpha = true := by
  by_cases hupper : c.isUpper = true
  · unfold Char.isAlpha
    rw [hupper, Bool.true_or]
  · have hsame : c.toLower = c := by
      unfold Char.isUpper at hupper
      unfold Char.toLower
      rw [dif_neg]
      simpa using hupper
    rwa [hsame] at h

/-- Keywords and Boolean literals are bare words in any letter case. -/
theorem isBare_of_sameIgnoringCase {text word : String} (hne : word.toList ≠ [])
    (hword : (Text.foldCase word.toList).all Char.isAlpha = true)
    (h : Text.sameIgnoringCase text word = true) : IsBare text.toList := by
  rw [Text.sameIgnoringCase_iff] at h
  have halpha : ∀ d ∈ text.toList, Text.startsName d = true := by
    intro d hd
    have hlower : d.toLower ∈ Text.foldCase word.toList := h ▸ List.mem_map_of_mem hd
    have hletter : d.toLower.isAlpha = true := List.all_eq_true.mp hword _ hlower
    rw [Text.startsName, isAlpha_of_isAlpha_toLower hletter, Bool.true_or]
  generalize text.toList = cs at h halpha
  cases cs with
  | nil => exact absurd (List.map_eq_nil_iff.mp h.symm) hne
  | cons d ds =>
    refine ⟨halpha d List.mem_cons_self, fun e he => ?_⟩
    exact Text.continuesName_of_startsName (halpha e (List.mem_cons_of_mem d he))

/-- Whether a name is a boolean or an identifier does not depend on its case. -/
theorem nameKind_congr {text word : String} (h : Text.sameIgnoringCase text word = true) :
    nameKind text = nameKind word := by
  rw [Text.sameIgnoringCase_iff] at h
  rw [nameKind, nameKind, Text.sameIgnoringCase, Text.sameIgnoringCase, Text.sameIgnoringCase,
    Text.sameIgnoringCase, h]

/-! ## Marks -/

theorem mark_of_endsWord (h : EndsWord cs) : mark c cs = single c := by
  cases cs with
  | nil => rfl
  | cons d ds =>
    -- no mark has a second character that ends a word
    have hequal : d ≠ '=' := ne_of_endsWord h (by decide)
    have hgreater : d ≠ '>' := ne_of_endsWord h (by decide)
    have hpair : pairKind? c d = none := by
      rw [pairKind?]
      · exact fun _ => hgreater
      · exact fun _ => hequal
      · exact fun _ => hequal
      · exact fun _ => hequal
    rw [mark]
    simp only [hpair]

/-- The characters that marks start with. -/
def openers : List Char := ['!', '*', '=', '<', '>', '(', ')', ',', ';']

theorem scan_of_mem_openers (h : c ∈ openers) : scan c cs = mark c cs := by
  -- as a test of the list, so that only its members are tried
  have hopeners : openers.all (fun c => (33 ≤ c.toNat ∧ c.toNat ≤ 132) ∧
      (c ≠ '-' ∧ c ≠ '/' ∧ c ≠ '\'' ∧ c ≠ '"') ∧ ¬ c.isDigit = true ∧
      ¬ Text.startsName c = true) = true := by decide
  obtain ⟨hc, hplain, hdigit, hname⟩ := of_decide_eq_true (List.all_eq_true.mp hopeners c h)
  rw [scan_of_plain hc hplain, if_neg hdigit, if_neg hname]

/-- A mark of one character. -/
theorem meaning_single {kind : TokenKind} (hc : c ∈ openers) (hsingle : singleKind? c = some kind)
    (hkind : kind ≠ .lineBreak) (hrest : EndsWord rest) :
    meaning ([c] ++ rest) = (kind, String.ofList [c]) :: meaning rest := by
  refine meaning_of_scan_token ?_ hkind
  rw [List.nil_append, scan_of_mem_openers hc, mark_of_endsWord hrest, single]
  simp only [hsingle]
  rfl

/-- Nothing makes a pair with an opening parenthesis. -/
theorem meaning_leftParen : meaning ('(' :: rest) = (.leftParen, "(") :: meaning rest := by
  have hmark : mark '(' rest = single '(' := by
    cases rest with
    | nil => rfl
    | cons d ds => rfl
  have hscan : scan '(' ([] ++ rest) = token .leftParen ['('] "(" := by
    rw [scan_of_mem_openers (by decide), List.nil_append, hmark]
    rfl
  exact meaning_of_scan_token hscan (by decide)

/-- A mark of two characters. -/
theorem meaning_pair {kind : TokenKind} {d : Char} (hc : c ∈ openers)
    (hpair : pairKind? c d = some kind) (hkind : kind ≠ .lineBreak) :
    meaning ([c, d] ++ rest) = (kind, String.ofList [c, d]) :: meaning rest := by
  refine meaning_of_scan_token ?_ hkind
  rw [scan_of_mem_openers hc, List.singleton_append, mark]
  simp only [hpair]
  rfl

/-- No spelling is longer than the longest mark that its characters allow: nothing that ends a word
makes a pair with its last character. -/
theorem meaning_mark {kind : TokenKind} {text : String} (h : text ∈ kind.spellings)
    (hrest : EndsWord rest) :
    meaning (text.toList ++ rest) = (kind, text) :: meaning rest := by
  cases kind <;> simp only [TokenKind.spellings, List.mem_singleton, List.mem_pair,
    List.not_mem_nil] at h
  case unequal =>
    rcases h with rfl | rfl
    · exact meaning_pair (by decide) rfl (by decide)
    · exact meaning_pair (by decide) rfl (by decide)
  case lessEqual =>
    subst h
    exact meaning_pair (by decide) rfl (by decide)
  case greaterEqual =>
    subst h
    exact meaning_pair (by decide) rfl (by decide)
  all_goals
    subst h
    exact meaning_single (by decide) rfl (by decide) hrest

/-! ## Spelled words -/

/-- A quoted identifier is one token, with the quoted text as its name. -/
theorem meaning_quote_identifier {text : String} {body : List Char}
    (h : text.toList = Text.quote '"' body) (hrest : EndsWord rest) :
    meaning (text.toList ++ rest) = (.identifier, String.ofList body) :: meaning rest := by
  rw [h]
  refine meaning_of_scan_token (scan_quote_identifier body fun hhead => ?_) (by decide)
  exact absurd (hrest _ hhead) (by decide)

/-- A string literal is one token, with the quoted text as its value. -/
theorem meaning_quote_string {text : String} {body : List Char}
    (h : text.toList = Text.quote '\'' body) (hrest : EndsWord rest) :
    meaning (text.toList ++ rest) = (.string, String.ofList body) :: meaning rest := by
  rw [h]
  refine meaning_of_scan_token (scan_quote_string body fun hhead => ?_) (by decide)
  exact absurd (hrest _ hhead) (by decide)

/-- Keywords are made of letters, so that they may be written bare. -/
theorem keyword_text_alpha (k : Keyword) :
    k.text.toList ≠ [] ∧ (Text.foldCase k.text.toList).all Char.isAlpha = true ∧
      nameKind k.text = .identifier := by
  cases k <;> decide

theorem boolean_text_alpha (value : Bool) :
    let text := if value then "true" else "false"
    text.toList ≠ [] ∧ (Text.foldCase text.toList).all Char.isAlpha = true ∧
      nameKind text = if value then .trueLiteral else .falseLiteral := by
  cases value <;> decide

/-- A text that differs from a word of letters only in their case. -/
theorem meaning_word {text word : String} (hne : word.toList ≠ [])
    (hword : (Text.foldCase word.toList).all Char.isAlpha = true)
    (h : Text.sameIgnoringCase text word = true) (hrest : EndsWord rest) :
    meaning (text.toList ++ rest) = (nameKind word, text) :: meaning rest := by
  have hbare : IsBare text.toList := isBare_of_sameIgnoringCase hne hword h
  rw [meaning_bare hbare hrest, nameKind_congr h]

/-- Whatever is meant by a word, its spellings are cut off as one token that means it. -/
theorem meaning_spelled {w : Word} {text : String} (h : w.Spells text) (hrest : EndsWord rest) :
    ∃ kind content, meaning (text.toList ++ rest) = (kind, content) :: meaning rest ∧
      ∀ p, w.Means ⟨kind, content, p⟩ := by
  cases w with
  | keyword k =>
    obtain ⟨hne, halpha, hkind⟩ := keyword_text_alpha k
    refine ⟨.identifier, text, ?_, fun p => ?_⟩
    · rw [meaning_word hne halpha h hrest, hkind]
    · show (_ && _) = true
      rw [show Text.sameIgnoringCase text k.text = true from h]
      rfl
  | name n =>
    refine ⟨.identifier, n, ?_, fun p => ⟨rfl, rfl⟩⟩
    rcases h with hquote | ⟨rfl, hbare, htrue, hfalse⟩
    · rw [meaning_quote_identifier hquote hrest, String.ofList_toList]
    · rw [meaning_bare hbare hrest, nameKind, htrue, hfalse]
      rfl
  | number value =>
    exact ⟨.number, text, meaning_decimal h.1 hrest, fun p => ⟨rfl, h.2⟩⟩
  | string content =>
    refine ⟨.string, content, ?_, fun p => ⟨rfl, rfl⟩⟩
    rw [meaning_quote_string h hrest, String.ofList_toList]
  | boolean value =>
    obtain ⟨hne, halpha, hkind⟩ := boolean_text_alpha value
    refine ⟨if value then .trueLiteral else .falseLiteral, text, ?_, fun p => rfl⟩
    rw [meaning_word hne halpha h hrest, hkind]
  | mark kind => exact ⟨kind, text, meaning_mark h hrest, fun p => rfl⟩

end MiniSql.Lexeme
