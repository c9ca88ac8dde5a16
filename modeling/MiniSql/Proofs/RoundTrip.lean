import MiniSql.Proofs.Derivation
import MiniSql.Proofs.Placing
import MiniSql.Proofs.Spelling

/-!
# Round trip

A program that is put into words, each of them spelled in one of its ways and laid out with trivia
between them, is read back from the text (`parse_of_isLaidOut`). The words come back as the tokens
of the text, and these derive the program.
-/

namespace MiniSql

namespace Lexeme

variable {cs : List Char} {ws : List Word}

/-- The token of a kind and a text stands for the word, wherever it is. -/
def Stands (w : Word) (q : TokenKind × String) : Prop := ∀ p, w.Means ⟨q.1, q.2, p⟩

/-- A spelled word in front of a text stands for that word, if nothing behind it goes on with it. -/
theorem stands_cons {w : Word} {text : String} {rest : List Char} (hw : w.Spells text)
    (hrest : EndsWord rest) (h : List.Forall₂ Stands ws (meaning rest)) :
    List.Forall₂ Stands (w :: ws) (meaning (text.toList ++ rest)) := by
  obtain ⟨kind, content, hmeaning, hmeans⟩ := meaning_spelled hw hrest
  rw [hmeaning]
  exact .cons hmeans h

/-- Spelled words with trivia around them stand for these words. -/
theorem stands_of_spaced (h : Spaced ws cs) : List.Forall₂ Stands ws (meaning cs) := by
  -- by induction on the layout: each word is ended by the trivia behind it
  induction h with
  | @last w text gap hw hgap =>
    -- behind the last word the trivia may be missing
    have hends : EndsWord gap := by
      cases gap with
      | nil => exact endsWord_nil
      | cons c gap =>
        have happend : EndsWord (c :: gap ++ []) := endsWord_append hgap (List.cons_ne_nil _ _)
        rwa [List.append_nil] at happend
    have hgap : meaning gap = [] := by
      have htrivia : meaning (gap ++ []) = meaning [] := meaning_trivia hgap
      rwa [List.append_nil, meaning_nil] at htrivia
    exact stands_cons hw hends (hgap ▸ .nil)
  | more hw hgap hne _ ih =>
    refine stands_cons hw (endsWord_append hgap hne) ?_
    rw [meaning_trivia hgap]
    exact ih

/-- The parser sees the tokens that count. -/
theorem map_significant (text : String) :
    (significant text).map (fun t => (t.kind, t.text)) = meaning text.toList := by
  rw [meaning, ← Token.map_placed .first, List.filter_map]
  rfl

theorem written_of_stands {text : String} (h : List.Forall₂ Stands ws (meaning text.toList)) :
    Word.Written ws (TokenStream.ofTokens (tokenize text)).tokens := by
  rw [ofTokens_tokenize]
  rw [← map_significant, List.forall₂_map_right_iff] at h
  exact h.imp fun w t hw => hw t.position

/-- The tokens of a laid out program are its words. -/
theorem written_of_isLaidOut {p : Program} {text : String} (h : p.IsLaidOut text) :
    Word.Written p.words (TokenStream.ofTokens (tokenize text)).tokens := by
  obtain ⟨hlead, hspaced⟩ := h
  apply written_of_stands
  rw [String.toList_ofList, meaning_trivia hlead]
  exact stands_of_spaced hspaced

end Lexeme

/-- A text whose tokens are the words of a program is parsed as that program. -/
theorem parse_of_stands {p : Program} {text : String} (hp : p.IsExpressible)
    (h : List.Forall₂ Lexeme.Stands p.words (Lexeme.meaning text.toList)) :
    parse text = .ok p := by
  rw [parse, Grammar.run_program_eq_ok_iff, Phrase.program_iff_written]
  exact ⟨hp, Lexeme.written_of_stands h⟩

/-- Every text of a program reads back as the program, in whatever case, quoting and spelling its
words are written, and whatever blanks and comments stand between them. -/
theorem parse_of_isLaidOut {p : Program} {text : String} (hp : p.IsExpressible)
    (h : p.IsLaidOut text) : parse text = .ok p := by
  rw [parse, Grammar.run_program_eq_ok_iff, Phrase.program_iff_written]
  exact ⟨hp, Lexeme.written_of_isLaidOut h⟩

/-- A statement with a comment in it, mixed case, a quoted name and a second sign for inequality. -/
theorem parse_laidOut_select :
    let p : Program := [.select
      { table := "t", columns := [], groupBy? := none
        condition? := some (.binary (.identifier "b") .unequal (.boolean true)) }]
    let text := "select * From \"t\" /**/ where b <> True ;\n"
    p.IsExpressible ∧ p.IsLaidOut text ∧ parse text = .ok p := by
  intro p text
  have hp : p.IsExpressible := by
    refine ⟨List.cons_ne_nil _ _,
      List.forall_mem_singleton.mpr ⟨fun e he => ?_, fun _ h => nomatch h⟩⟩
    obtain rfl := Option.some_inj.mp he
    exact .one (.one (.two (.one .identifier) (by decide) (.one .boolean)))
  have space : Trivia [' '] := .cons (.blank rfl) .nil
  have comment : Trivia [' ', '/', '*', '*', '/', ' '] :=
    .cons (.blank rfl) (.cons (.blockComment (.closing .done)) space)
  have lineBreak : Trivia ['\n'] := .cons (.blank rfl) .nil
  have hselect : (Word.keyword .select).Spells "select" :=
    (by decide : Text.sameIgnoringCase "select" "SELECT" = true)
  have hall : (Word.mark .asterisk).Spells "*" := List.mem_singleton.mpr rfl
  have hfrom : (Word.keyword .«from»).Spells "From" :=
    (by decide : Text.sameIgnoringCase "From" "FROM" = true)
  have htable : (Word.name "t").Spells "\"t\"" := .inl (by decide)
  have hwhere : (Word.keyword .«where»).Spells "where" :=
    (by decide : Text.sameIgnoringCase "where" "WHERE" = true)
  have hcolumn : (Word.name "b").Spells "b" :=
    .inr ⟨rfl, .mk (by decide) (List.forall_mem_nil _), by decide, by decide⟩
  have hunequal : (Word.mark .unequal).Spells "<>" := List.mem_pair.mpr (.inr rfl)
  have htrue : (Word.boolean true).Spells "True" :=
    (by decide : Text.sameIgnoringCase "True" "true" = true)
  have hend : Word.semicolon.Spells ";" := List.mem_singleton.mpr rfl
  have hspaced : Spaced p.words _ :=
    .more hselect space (List.cons_ne_nil _ _) (.more hall space (List.cons_ne_nil _ _)
      (.more hfrom space (List.cons_ne_nil _ _) (.more htable comment (List.cons_ne_nil _ _)
      (.more hwhere space (List.cons_ne_nil _ _) (.more hcolumn space (List.cons_ne_nil _ _)
      (.more hunequal space (List.cons_ne_nil _ _) (.more htrue space (List.cons_ne_nil _ _)
      (.last hend lineBreak))))))))
  have hlaid : p.IsLaidOut text := .mk .nil hspaced
  exact ⟨hp, hlaid, parse_of_isLaidOut hp hlaid⟩

end MiniSql
