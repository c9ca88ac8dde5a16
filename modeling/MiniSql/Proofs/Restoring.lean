import MiniSql.Proofs.Insertion
import MiniSql.Proofs.ReadBack
import MiniSql.Proofs.Reordering
import MiniSql.Proofs.RoundTrip

/-!
# Restoring scalars from text

A scalar is written so that it can be read back. Written into an `INSERT` statement, scalars come
back as a row of their table (`execute_insertText`), whatever characters the texts and the name of
the table are made of. What comes back is equal to what was written; only the sign of a zero is lost
(`Scalar.canonical`).
-/

namespace MiniSql

/-! ## One scalar -/

namespace Scalar

variable {s : Scalar}

/-- Numbers have to be finite. -/
def isFinite : Scalar → Bool
  | number x => x.isFinite
  | _ => true

def canonical : Scalar → Scalar
  | number x => number x.canonical
  | s => s

/-- The canonical form of a finite scalar is equal to it. -/
theorem equals_canonical (h : s.isFinite = true) : s.canonical.equals s = true := by
  cases s with
  | number x => exact Binary64.equals_canonical h
  | text s => exact beq_self_eq_true s
  | boolean b => exact beq_self_eq_true b

/-- The literal that the text of a scalar is. -/
def literal : Scalar → Expr
  | number x => .number x.canonical
  | text s => .string s
  | boolean b => .boolean b

/-- The literal that stands for a scalar has the scalar's canonical form as its value. -/
theorem scalar?_literal (s : Scalar) : s.literal.scalar? = some s.canonical := by
  cases s <;> rfl

theorem isPrimary_literal (s : Scalar) : s.literal.IsPrimary := by
  cases s with
  | number x => exact .number
  | text s => exact .string
  | boolean b => exact .boolean

/-- The literal of a finite scalar is one word, and the text written for the scalar spells it. -/
theorem exists_word (h : s.isFinite = true) : ∃ w, s.literal.words = [w] ∧ w.Spells s.render := by
  cases s with
  | number x => exact ⟨.number x.canonical, rfl, isDecimal_renderNumber h, read?_renderNumber h⟩
  | text s => exact ⟨.string s, rfl, String.toList_ofList⟩
  | boolean b =>
    refine ⟨.boolean b, rfl, ?_⟩
    cases b with
    | true => exact (by decide : Text.sameIgnoringCase "TRUE" "true" = true)
    | false => exact (by decide : Text.sameIgnoringCase "FALSE" "false" = true)

end Scalar

/-! ## The statement as text -/

/-- The statement that inserts a row of scalars into a table. The table is named in quotes. -/
def insertText (name : String) (scalars : List Scalar) : String :=
  "INSERT INTO " ++ String.ofList (Text.quote '"' name.toList) ++ " VALUES (" ++
    ", ".intercalate (scalars.map Scalar.render) ++ ");"

namespace Insert

def ofScalars (name : String) (scalars : List Scalar) : Insert :=
  ⟨name, none, .array (scalars.map Scalar.literal)⟩

theorem isExpressible_ofScalars (name : String) (scalars : List Scalar) :
    (ofScalars name scalars).IsExpressible where
  columns := nofun
  values := by
    refine ⟨_, rfl, fun e he => ?_⟩
    obtain ⟨s, -, rfl⟩ := List.mem_map.mp he
    exact s.isPrimary_literal

theorem scalars_ofScalars (name : String) (scalars : List Scalar) :
    (ofScalars name scalars).scalars = scalars.map Scalar.canonical := by
  show (scalars.map Scalar.literal).filterMap Expr.scalar? = _
  rw [List.filterMap_map, ← List.filterMap_eq_map]
  exact List.filterMap_congr fun s _ => s.scalar?_literal

/-- The row that is inserted pairs the columns of the table with the scalars. -/
theorem rowIn_ofScalars (name : String) (scalars : List Scalar) (columns : List String) :
    (ofScalars name scalars).rowIn columns =
      Row.ofList (columns.zip (scalars.map Scalar.canonical)) := by
  rw [rowIn, scalars_ofScalars]
  rfl

/-- An insertion of as many scalars as the table has columns has no fault. -/
theorem fault?_ofScalars {schema? : String → Option (List String)} {name : String}
    {scalars : List Scalar} {columns : List String} (hschema : schema? name = some columns)
    (hlength : scalars.length = columns.length) :
    (ofScalars name scalars).fault? schema? = none := by
  have hunfit : (ofScalars name scalars).unfit? = none := by
    show (scalars.map Scalar.literal).find? (·.scalar?.isNone) = none
    rw [List.find?_eq_none]
    intro e he
    obtain ⟨s, -, rfl⟩ := List.mem_map.mp he
    rw [s.scalar?_literal]
    exact Bool.false_ne_true
  have htarget : (ofScalars name scalars).targetFault? columns = none := by
    refine if_pos ?_
    rw [scalars_ofScalars, List.length_map]
    exact hlength.symm
  rw [fault?, hunfit, show schema? (ofScalars name scalars).table = some columns from hschema]
  exact congrArg (Option.map _) htarget

end Insert

namespace Lexeme

variable {ws : List Word} {rest : List Char} {scalars : List Scalar}

/-- A word and the blank behind it stand for that word. -/
theorem stands_cons_blank {w : Word} {text : String} (hw : w.Spells text)
    (h : List.Forall₂ Stands ws (meaning rest)) :
    List.Forall₂ Stands (w :: ws) (meaning (text.toList ++ ' ' :: rest)) := by
  apply stands_cons hw
  · intro c hc
    obtain rfl := Option.some_inj.mp hc
    exact .inl (by decide)
  · rw [meaning_blank (by decide)]
    exact h

theorem stands_leftParen (h : List.Forall₂ Stands ws (meaning rest)) :
    List.Forall₂ Stands (.mark .leftParen :: ws) (meaning ('(' :: rest)) := by
  rw [meaning_leftParen]
  exact .cons (fun _ => rfl) h

theorem endsWord_mark {c : Char} (h : c ∈ [',', ')', ';']) : EndsWord (c :: rest) := by
  intro d hd
  obtain rfl := Option.some_inj.mp hd
  exact .inr (List.mem_cons_of_mem _ (List.mem_cons_of_mem _ h))

/-- Literals with a comma and a blank between them stand for the list of their words. -/
theorem stands_literals (hfinite : ∀ s ∈ scalars, s.isFinite = true) (hrest : EndsWord rest)
    (h : List.Forall₂ Stands ws (meaning rest)) :
    List.Forall₂ Stands
      (Word.separate (Expr.wordsOfEach (scalars.map Scalar.literal)) ++ ws)
      (meaning ([',', ' '].intercalate (scalars.map fun s => s.render.toList) ++ rest)) := by
  induction scalars with
  | nil => exact h
  | cons s more ih =>
    obtain ⟨hs, hmore⟩ := List.forall_mem_cons.mp hfinite
    obtain ⟨w, hw, hspells⟩ := Scalar.exists_word hs
    cases more with
    | nil =>
      -- the last scalar is ended by what stands behind the list
      show List.Forall₂ Stands (s.literal.words ++ ws) _
      rw [hw, List.map_singleton, List.intercalate_singleton]
      exact stands_cons hspells hrest h
    | cons s' more =>
      have hcomma : Word.comma.Spells "," := List.mem_singleton.mpr rfl
      have hwords : Word.separate (Expr.wordsOfEach ((s :: s' :: more).map Scalar.literal)) ++ ws =
          w :: Word.comma ::
            (Word.separate (Expr.wordsOfEach ((s' :: more).map Scalar.literal)) ++ ws) := by
        show s.literal.words ++ Word.comma :: _ ++ ws = _
        rw [hw, List.append_assoc]
        rfl
      have htext : [',', ' '].intercalate ((s :: s' :: more).map fun s => s.render.toList) ++ rest =
          s.render.toList ++ (",".toList ++ ' ' ::
            ([',', ' '].intercalate ((s' :: more).map fun s => s.render.toList) ++ rest)) := by
        rw [List.map_cons, List.map_cons, List.intercalate_cons_cons]
        simp
      rw [hwords, htext]
      exact stands_cons hspells (endsWord_mark (by decide)) (stands_cons_blank hcomma (ih hmore))

/-- The text of an insertion stands for the words of its statement. -/
theorem stands_insertText {name : String} (hfinite : ∀ s ∈ scalars, s.isFinite = true) :
    List.Forall₂ Stands (Program.words [.insert (.ofScalars name scalars)])
      (meaning (insertText name scalars).toList) := by
  have hinsert : (Word.keyword .insert).Spells "INSERT" :=
    (by decide : Text.sameIgnoringCase "INSERT" "INSERT" = true)
  have hinto : (Word.keyword .into).Spells "INTO" :=
    (by decide : Text.sameIgnoringCase "INTO" "INTO" = true)
  have htable : (Word.name name).Spells (String.ofList (Text.quote '"' name.toList)) :=
    .inl String.toList_ofList
  have hvalues : (Word.keyword .values).Spells "VALUES" :=
    (by decide : Text.sameIgnoringCase "VALUES" "VALUES" = true)
  have hclose : (Word.mark .rightParen).Spells ")" := List.mem_singleton.mpr rfl
  have hend : Word.semicolon.Spells ";" := List.mem_singleton.mpr rfl
  have hwords : Program.words [.insert (.ofScalars name scalars)] =
      .keyword .insert :: .keyword .into :: .name name :: .keyword .values :: .mark .leftParen ::
        (Word.separate (Expr.wordsOfEach (scalars.map Scalar.literal)) ++
          [.mark .rightParen, Word.semicolon]) := by
    simp [Program.words, Statement.words, Insert.words, Insert.columnsWords, Insert.ofScalars,
      Expr.words, Word.parenthesize]
  have htext : (insertText name scalars).toList =
      "INSERT".toList ++ ' ' :: ("INTO".toList ++ ' ' ::
        ((String.ofList (Text.quote '"' name.toList)).toList ++ ' ' ::
          ("VALUES".toList ++ ' ' :: '(' ::
            ([',', ' '].intercalate (scalars.map fun s => s.render.toList) ++
              (")".toList ++ (";".toList ++ [])))))) := by
    simp [insertText, String.toList_intercalate, Function.comp_def]
  have hback : List.Forall₂ Stands [.mark .rightParen, Word.semicolon]
      (meaning (")".toList ++ (";".toList ++ []))) := by
    refine stands_cons hclose (endsWord_mark (by decide)) (stands_cons hend endsWord_nil ?_)
    rw [meaning_nil]
    exact .nil
  rw [hwords, htext]
  exact stands_cons_blank hinsert (stands_cons_blank hinto (stands_cons_blank htable
    (stands_cons_blank hvalues (stands_leftParen
      (stands_literals hfinite (endsWord_mark (by decide)) hback)))))

end Lexeme

/-- The text written for finite scalars is parsed as the insertion of these scalars. -/
theorem parse_insertText {name : String} {scalars : List Scalar}
    (hfinite : ∀ s ∈ scalars, s.isFinite = true) :
    parse (insertText name scalars) = .ok [.insert (.ofScalars name scalars)] := by
  refine parse_of_stands ⟨List.cons_ne_nil _ _, List.forall_mem_singleton.mpr ?_⟩
    (Lexeme.stands_insertText hfinite)
  exact Insert.isExpressible_ofScalars name scalars

/-! ## Running the text -/

namespace Evaluator

variable {ω : Type}

/-- Scalars survive the way through text and store: the statement written for a row of finite
scalars parses, its execution inserts exactly one row, and each column of that row has a value equal
to the scalar it was written from. The other tables and rows are left alone. -/
theorem execute_insertText (policy : ClaimPolicy) (w : World Store ω) {name : String}
    {table : Table} {scalars : List Scalar} (htable : w.state.table? name = some table)
    (hcolumns : table.columns.Nodup) (hlength : scalars.length = table.columns.length)
    (hfinite : ∀ s ∈ scalars, s.isFinite = true) :
    let ev : Evaluator Store ω := ⟨Store.backend, [], policy⟩
    ∃ p w' row, parse (insertText name scalars) = .ok p ∧ ev.execute p w = .ok [.null] w' ∧
      w'.state.table? name = some (table.push row) ∧
      (∀ other, other ≠ name → w'.state.table? other = w.state.table? other) ∧
      w'.state.tables.names = w.state.tables.names ∧
      row.names = table.columns ∧
      ∀ (k : Nat) (column : String) (s : Scalar), table.columns[k]? = some column →
        scalars[k]? = some s → ∃ v, row.get? column = some v ∧ v.equals s = true := by
  intro ev
  have hev : ev.extensions = [] := rfl
  have hschema : w.state.schema? name = some table.columns := by
    rw [Store.schema?, htable]
    rfl
  have hfaultless : ∀ s ∈ [Statement.insert (.ofScalars name scalars)],
      s.fault? w.state.schema? = none :=
    List.forall_mem_singleton.mpr (Insert.fault?_ofScalars hschema hlength)
  obtain ⟨w', hexecute, hreached⟩ := execute_of_faultless hev rfl hfaultless
  have hrows (other : String) (columns : List String) :
      Program.rowsInto [.insert (.ofScalars name scalars)] other columns =
        if name = other then [Row.ofList (columns.zip (scalars.map Scalar.canonical))] else [] := by
    rw [Reached.rowsInto_insert, Insert.rowIn_ofScalars]
    rfl
  have hvalues : table.columns.length = (scalars.map Scalar.canonical).length := by
    rw [List.length_map, hlength]
  refine ⟨_, w', _, parse_insertText hfinite, hexecute, ?_, fun other hother => ?_, hreached.names,
    Row.names_ofList_zip hvalues hcolumns, fun k column s hcolumn hs => ?_⟩
  · rw [hreached.tables, htable, Option.map_some, hrows, if_pos rfl]
    rfl
  · rw [hreached.tables]
    simp only [hrows, if_neg (Ne.symm hother), List.append_nil]
    exact Option.map_id'
  · have hvalue : (scalars.map Scalar.canonical)[k]? = some s.canonical := by
      rw [List.getElem?_map, hs, Option.map_some]
    refine ⟨s.canonical, ?_, Scalar.equals_canonical (hfinite s (List.mem_of_getElem? hs))⟩
    exact ((Row.holdsEach_ofList_iff hvalues).mpr hcolumns).get k column _ hcolumn hvalue

/-! The texts of this table and its row hold the marks of the language themselves, and the numbers
stand on both sides of the switch between the two formats. -/

namespace Restored

def name : String := "it's \"quoted\"; --"

def table : Table := ⟨["a", "b", "c", "d", "e", "f"], []⟩

def scalars : List Scalar :=
  [.number (.ofInt (-999999999999999)), .number (.ofInt 1000000000000000),
    .number (.ofDecimal true 1 (-1)), .number (.ofRank true 0), .text "'); /*\n--\"", .boolean true]

def start : World Store Unit := ⟨.fresh .race, Store.empty.put name table, (), #[]⟩

/-- A row of all kinds of scalars, with a quote in a string and a negative zero. -/
theorem restores_scalars :
    let ev : Evaluator Store Unit := ⟨Store.backend, [], .race⟩
    start.state.table? name = some table ∧ table.columns.Nodup ∧
    scalars.length = table.columns.length ∧ (∀ s ∈ scalars, s.isFinite = true) ∧
    ∃ p w' row, parse (insertText name scalars) = .ok p ∧ ev.execute p start = .ok [.null] w' ∧
      w'.state.table? name = some (table.push row) ∧
      (∀ other, other ≠ name → w'.state.table? other = start.state.table? other) ∧
      w'.state.tables.names = start.state.tables.names ∧
      row.names = table.columns ∧
      ∀ (k : Nat) (column : String) (s : Scalar), table.columns[k]? = some column →
        scalars[k]? = some s → ∃ v, row.get? column = some v ∧ v.equals s = true := by
  intro ev
  have htable : start.state.table? name = some table := by
    rw [start, Store.table?_put, if_pos rfl]
  have hcolumns : table.columns.Nodup := by decide
  have hfinite : ∀ s ∈ scalars, s.isFinite = true := by decide +kernel
  exact ⟨htable, hcolumns, rfl, hfinite, execute_insertText .race start htable hcolumns rfl hfinite⟩

end Restored

end Evaluator

end MiniSql
