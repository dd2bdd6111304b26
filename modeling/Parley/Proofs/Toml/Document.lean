/-
Reading a document back. Its text is a sequence of statements, one to a line: headers, values and
empty lines. Each of them is read as what it says (`lines_statement`), so the text of a table is
read as its sections, which build the table (`parse?_document`).
-/
import Parley.Proofs.Toml.Section
import Parley.Text.Layout

namespace Parley.Toml

open Toml.Parser (Draft lines line pair isBlankLine)

/-! ## Statements -/

/-- What may stand in a line. -/
inductive Statement where
  | blank
  | head (element : Bool) (names : List String)
  | give (name : String) (v : Toml)

namespace Statement

/-- The text of a statement, without the end of the line. -/
def chars : Statement → List Char
  | .blank => []
  | .head false names => '[' :: (pathChars names ++ [']'])
  | .head true names => '[' :: '[' :: (pathChars names ++ [']', ']'])
  | .give name v => nameChars name ++ ' ' :: '=' :: ' ' :: valueChars v

/-- What a statement does. -/
def take (d : Draft) : Statement → Option Draft
  | .blank => some d
  | .head element names => d.head element names
  | .give name v => d.give [name] v

/-- A statement that can be read. -/
def Readable : Statement → Prop
  | .blank => True
  | .head _ names => names ≠ [] ∧ names.length ≤ depthMax
  | .give _ v => Plain depthMax v

end Statement

/-- The text of statements. -/
def statementLines (ss : List Statement) : List Char :=
  ss.flatMap fun s => s.chars ++ ['\n']

section Line

variable {d : Draft} {r : List Char}

theorem endsPath_bracket (r : List Char) : EndsPath (']' :: r) where
  bare := by
    rintro c ⟨⟩
    decide
  dot := by
    rintro c ⟨⟩
    decide

theorem endsPath_equals (r : List Char) : EndsPath (' ' :: '=' :: r) where
  bare := by
    rintro c ⟨⟩
    decide
  dot := by
    rintro c ⟨⟩
    decide

theorem path_bracket {names : List String} (hne : names ≠ []) (hlen : names.length ≤ depthMax)
    (r : List Char) : path (pathChars names ++ ']' :: r) = some (names, ']' :: r) :=
  path_pathChars hne hlen (endsPath_bracket r)

/-- A character that a name starts with. -/
theorem ne_of_isNameStart {c : Char} (h : isNameStart c = true) :
    c ≠ '[' ∧ c ≠ ' ' ∧ c ≠ '\t' ∧ c ≠ '#' ∧ c ≠ '\n' ∧ c ≠ '\r' := by
  refine ⟨?_, ?_, ?_, ?_, ?_, ?_⟩ <;>
  · rintro rfl
    exact absurd h (by decide)

theorem exists_pathChars {names : List String} (hne : names ≠ []) :
    ∃ c cs, pathChars names = c :: cs ∧ isNameStart c = true := by
  obtain ⟨k, ks, rfl⟩ := List.exists_cons_of_ne_nil hne
  obtain ⟨c, cs, heq, hc⟩ := exists_nameChars k
  cases ks with
  | nil => exact ⟨c, cs, heq, hc⟩
  | cons l ls =>
    have hchars : pathChars (k :: l :: ls) = nameChars k ++ '.' :: pathChars (l :: ls) := rfl
    rw [hchars, heq]
    exact ⟨c, _, rfl, hc⟩

theorem line_table {names : List String} (hne : names ≠ []) (hlen : names.length ≤ depthMax) :
    line d ('[' :: (pathChars names ++ ']' :: r)) = (d.head false names).map (·, r) := by
  have hread := path_bracket hne hlen r
  obtain ⟨c, cs, heq, hc⟩ := exists_pathChars hne
  have hbracket := (ne_of_isNameStart hc).1
  rw [heq, List.cons_append] at hread ⊢
  rw [line, hread]
  · rfl
  · simp [hbracket]

theorem line_element {names : List String} (hne : names ≠ []) (hlen : names.length ≤ depthMax) :
    line d ('[' :: '[' :: (pathChars names ++ ']' :: ']' :: r)) =
      (d.head true names).map (·, r) := by
  rw [line, path_bracket hne hlen]
  rfl

theorem line_give (k : String) {v : Toml} (hv : Plain depthMax v) :
    line d (nameChars k ++ ' ' :: '=' :: ' ' :: (valueChars v ++ '\n' :: r)) =
      (d.give [k] v).map (·, '\n' :: r) := by
  have hpath : path (nameChars k ++ ' ' :: '=' :: ' ' :: (valueChars v ++ '\n' :: r)) =
      some ([k], '=' :: ' ' :: (valueChars v ++ '\n' :: r)) :=
    path_pathChars (List.cons_ne_nil k []) (Nat.succ_le_succ (Nat.zero_le 78)) (endsPath_equals _)
  have hdrop : (' ' :: (valueChars v ++ '\n' :: r)).dropWhile isSpace =
      valueChars v ++ '\n' :: r := by
    obtain ⟨c, cs, heq, hc⟩ := hv.head
    rw [List.dropWhile_cons_of_pos (by decide), heq]
    refine dropWhile_of_head ?_
    rintro d ⟨⟩
    simp only [List.mem_cons, not_or] at hc
    simp [isSpace, hc.1, hc.2.1]
  have hpair : pair (Parser.value depthMax)
      (nameChars k ++ ' ' :: '=' :: ' ' :: (valueChars v ++ '\n' :: r)) =
        some (([k], v), '\n' :: r) := by
    unfold pair
    rw [hpath]
    show Option.map _ (Parser.value depthMax
      ((' ' :: (valueChars v ++ '\n' :: r)).dropWhile isSpace)) = _
    rw [hdrop, hv.value (closed_cons (.inl rfl))]
    rfl
  obtain ⟨c, cs, heq, hc⟩ := exists_nameChars k
  have hbracket := (ne_of_isNameStart hc).1
  rw [heq, List.cons_append] at hpair ⊢
  rw [line, hpair]
  all_goals simp [hbracket]

end Line

namespace Statement

variable {d : Draft} {r : List Char}

theorem line_chars {s : Statement} (h : s.Readable) :
    (if isBlankLine (s.chars ++ '\n' :: r) then some (d, s.chars ++ '\n' :: r)
      else line d (s.chars ++ '\n' :: r)) = (s.take d).map (·, '\n' :: r) := by
  cases s with
  | blank => rfl
  | head element names =>
    obtain ⟨hne, hlen⟩ := h
    cases element with
    | false =>
      have hchars : (head false names).chars ++ '\n' :: r =
          '[' :: (pathChars names ++ ']' :: '\n' :: r) := by simp [chars]
      rw [hchars]
      exact line_table hne hlen
    | true =>
      have hchars : (head true names).chars ++ '\n' :: r =
          '[' :: '[' :: (pathChars names ++ ']' :: ']' :: '\n' :: r) := by simp [chars]
      rw [hchars]
      exact line_element hne hlen
  | give k v =>
    have hchars : (give k v).chars ++ '\n' :: r =
        nameChars k ++ ' ' :: '=' :: ' ' :: (valueChars v ++ '\n' :: r) := by simp [chars]
    have hblank : isBlankLine (nameChars k ++ ' ' :: '=' :: ' ' :: (valueChars v ++ '\n' :: r)) =
        false := by
      obtain ⟨c, cs, heq, hc⟩ := exists_nameChars k
      obtain ⟨-, -, -, hnumber, hline, hreturn⟩ := ne_of_isNameStart hc
      rw [heq]
      simp [isBlankLine, hnumber, hline, hreturn]
    rw [hchars, hblank]
    exact line_give k h

/-- No statement has blanks in front. -/
theorem dropWhile_chars (s : Statement) (h : s.Readable) (r : List Char) :
    (s.chars ++ '\n' :: r).dropWhile isSpace = s.chars ++ '\n' :: r := by
  refine dropWhile_of_head ?_
  cases s with
  | blank =>
    rintro c ⟨⟩
    decide
  | head element names =>
    cases element <;>
    · rintro c ⟨⟩
      decide
  | give k v =>
    obtain ⟨c, cs, heq, hc⟩ := exists_nameChars k
    obtain ⟨-, hspace, htab, -⟩ := ne_of_isNameStart hc
    rw [chars, heq]
    rintro d ⟨⟩
    simp [isSpace, hspace, htab]

end Statement

/-- A statement is read, and then the lines behind it, if there are any. -/
theorem lines_statement {s : Statement} (h : s.Readable) (fuel : Nat) (d : Draft) (r : List Char) :
    lines (fuel + 1) d (s.chars ++ '\n' :: r) =
      (s.take d).bind fun d => if r = [] then some d else lines fuel d r := by
  rw [lines, s.dropWhile_chars h, Statement.line_chars h]
  cases s.take d with
  | none => rfl
  | some d =>
    cases r with
    | nil => rfl
    | cons c r =>
      rw [Option.bind_some, if_neg (List.cons_ne_nil c r)]
      rfl

theorem statementLines_eq_nil_iff {ss : List Statement} : statementLines ss = [] ↔ ss = [] := by
  cases ss <;> simp [statementLines]

theorem length_le_statementLines (ss : List Statement) :
    ss.length ≤ (statementLines ss).length := by
  induction ss with
  | nil => exact Nat.le_refl 0
  | cons s ss ih =>
    rw [statementLines, List.flatMap_cons, List.length_append, List.length_append]
    simp only [List.length_cons, List.length_nil]
    exact Nat.add_comm ss.length 1 ▸ Nat.add_le_add (Nat.le_add_left _ _) ih

/-- A text of statements does what they do one after the other. -/
theorem lines_statements {ss : List Statement} (hne : ss ≠ []) (h : ∀ s ∈ ss, s.Readable)
    {fuel : Nat} (hf : ss.length ≤ fuel) (d : Draft) :
    lines fuel d (statementLines ss) = ss.foldlM Statement.take d := by
  induction ss generalizing fuel d with
  | nil => exact absurd rfl hne
  | cons s ss ih =>
    obtain ⟨fuel, rfl⟩ : ∃ n, fuel = n + 1 := ⟨fuel - 1, by rw [List.length_cons] at hf; omega⟩
    obtain ⟨hs, hss⟩ := List.forall_mem_cons.1 h
    have hsplit : statementLines (s :: ss) = s.chars ++ '\n' :: statementLines ss := by
      simp [statementLines]
    rw [hsplit, lines_statement hs]
    show (s.take d).bind _ = (s.take d).bind (ss.foldlM Statement.take)
    refine Option.bind_congr fun d _ => ?_
    by_cases hnil : ss = []
    · rw [hnil]
      rfl
    · rw [if_neg (mt statementLines_eq_nil_iff.1 hnil),
        ih hnil hss (Nat.le_of_succ_le_succ hf)]

/-! ## Documents -/

namespace Section

/-- The statements of a section, with an empty line behind them. -/
def statements (s : Section) : List Statement :=
  .head s.element s.names :: s.values.map (fun e => .give e.1 e.2) ++ [.blank]

theorem Readable.statement {s : Section} (h : s.Readable depthMax) :
    ∀ t ∈ s.statements, t.Readable := by
  intro t ht
  rw [statements, List.cons_append, List.mem_cons, List.mem_append, List.mem_map,
    List.mem_singleton] at ht
  rcases ht with rfl | ⟨e, he, rfl⟩ | rfl
  · exact ⟨h.names_ne, h.length_le⟩
  · exact h.plain e he
  · trivial

theorem take_give (values : List (String × Toml)) (d : Draft) :
    (values.map fun e => Statement.give e.1 e.2).foldlM Statement.take d =
      (give d.header values d.entries).map fun es => ⟨es, d.header⟩ := by
  induction values generalizing d with
  | nil => rfl
  | cons e values ih =>
    show ((Node.putUnder d.header [] e.1 e.2 d.entries).map _).bind _ =
      ((Node.putUnder d.header [] e.1 e.2 d.entries).bind (give d.header values)).map _
    cases Node.putUnder d.header [] e.1 e.2 d.entries with
    | none => rfl
    | some es => exact ih ⟨es, d.header⟩

/-- The statements of a section do what the section does. -/
theorem take_statements (s : Section) (d : Draft) :
    s.statements.foldlM Statement.take d = (s.read d.entries).map fun es => ⟨es, s.names⟩ := by
  have hvalues (d : Draft) :
      List.foldlM Statement.take d (s.values.map (fun e => Statement.give e.1 e.2) ++ [.blank]) =
        (give d.header s.values d.entries).map fun es => ⟨es, d.header⟩ := by
    rw [List.foldlM_append, take_give]
    cases give d.header s.values d.entries <;> rfl
  show (d.head s.element s.names).bind _ = _
  refine Eq.trans (Option.bind_congr fun d _ => hvalues d) ?_
  unfold read Draft.head
  cases s.names.getLast? with
  | none => rfl
  | some name =>
    dsimp only
    cases (if s.element then Node.openElement else Node.openTable) s.names.dropLast name d.entries
      <;> rfl

theorem take_sections (ss : List Section) (d : Draft) :
    ((ss.flatMap statements).foldlM Statement.take d).map Draft.entries = readAll ss d.entries := by
  induction ss generalizing d with
  | nil => rfl
  | cons s ss ih =>
    rw [List.flatMap_cons, List.foldlM_append, take_statements]
    show _ = (s.read d.entries).bind (readAll ss)
    cases s.read d.entries with
    | none => rfl
    | some es => exact ih ⟨es, s.names⟩

/-- The text of a section, below the names of a path. -/
def chars (path : List String) (s : Section) : List Char :=
  (Statement.head s.element (path ++ s.names)).chars ++
    '\n' :: s.values.flatMap fun e => (Statement.give e.1 e.2).chars ++ ['\n']

theorem chars_under (path : List String) (k : String) (s : Section) :
    (s.under k).chars path = s.chars (path ++ [k]) := by
  simp [chars, under]

theorem map_chars_under (path : List String) (k : String) (ss : List Section) :
    (ss.map (under k)).map (chars path) = ss.map (chars (path ++ [k])) := by
  rw [List.map_map]
  exact List.map_congr_left fun s _ => chars_under path k s

theorem chars_own (path : List String) (element : Bool) (k : String) (es : List (String × Toml)) :
    chars path ⟨element, [k], direct es⟩ =
      (Statement.head element (path ++ [k])).chars ++ '\n' :: valueLines es := by
  simp [chars, valueLines, direct, Statement.chars]

theorem chars_nil (s : Section) : s.chars [] ++ ['\n'] = statementLines s.statements := by
  simp [chars, statements, statementLines, List.flatMap_map, Statement.chars]

end Section

/-! ### Printing -/

theorem valueLines_eq (es : List (String × Toml)) :
    valueLines es = statementLines ((direct es).map fun e => .give e.1 e.2) := by
  simp [valueLines, direct, statementLines, List.flatMap_map, Statement.chars]

theorem isEmpty_valueLines (es : List (String × Toml)) :
    (valueLines es).isEmpty = (direct es).isEmpty := by
  rw [valueLines_eq, Bool.eq_iff_iff, List.isEmpty_iff, List.isEmpty_iff,
    statementLines_eq_nil_iff, List.map_eq_nil_iff]

mutual

/-- The parts of a document are the texts of its sections. -/
theorem parts_eq : ∀ (es : List (String × Toml)) (path : List String),
    parts path es = (sections es).map (Section.chars path)
  | [], _ => by
    rw [parts, sections, List.map_nil]
  | (k, .table es) :: rest, path => by
    have hnested := parts_eq es (path ++ [k])
    have hrest := parts_eq rest path
    have hown := Section.chars_own path false k es
    rw [parts, sections, valueSections, isEmpty_valueLines, hnested, hrest, List.map_append,
      List.map_append, Section.map_chars_under]
    split_ifs
    · rfl
    · rw [List.map_singleton, hown]
      simp [Statement.chars]
  | (k, .arr vs) :: rest, path => by
    have hitems := elementParts_eq vs path k
    have hrest := parts_eq rest path
    rw [parts, sections, valueSections, hitems, hrest]
    split_ifs <;> simp
  | (k, .str _) :: rest, path | (k, .int _) :: rest, path | (k, .float _) :: rest, path
  | (k, .bool _) :: rest, path | (k, .date _) :: rest, path => by
    have hrest := parts_eq rest path
    rw [parts, sections, valueSections, hrest]
    all_goals simp

theorem elementParts_eq : ∀ (vs : List Toml) (path : List String) (k : String),
    elementParts (path ++ [k]) vs = (elementSections k vs).map (Section.chars path)
  | [], _, _ => by
    rw [elementParts, elementSections, List.map_nil]
  | .table es :: vs, path, k => by
    have hnested := parts_eq es (path ++ [k])
    have hrest := elementParts_eq vs path k
    rw [elementParts, elementSections, hnested, hrest, List.map_append, List.map_cons,
      Section.map_chars_under, Section.chars_own]
    simp [Statement.chars]
  | .arr _ :: vs, path, k | .str _ :: vs, path, k | .int _ :: vs, path, k
  | .float _ :: vs, path, k | .bool _ :: vs, path, k | .date _ :: vs, path, k => by
    have hrest := elementParts_eq vs path k
    rw [elementParts, elementSections, hrest]
    all_goals simp

end

/-- The statements of a document with an empty line at its end. -/
def statements (es : List (String × Toml)) : List Statement :=
  (if (direct es).isEmpty then [] else (direct es).map (fun e => .give e.1 e.2) ++ [.blank])
    ++ (sections es).flatMap Section.statements

theorem statementLines_append (ss ts : List Statement) :
    statementLines (ss ++ ts) = statementLines ss ++ statementLines ts :=
  List.flatMap_append

/-- Line ends between the parts of a text and at its end stand behind every part. -/
theorem intercalate_append {sep : List Char} {parts : List (List Char)} (h : parts ≠ []) :
    sep.intercalate parts ++ sep = parts.flatMap (· ++ sep) := by
  induction parts with
  | nil => exact absurd rfl h
  | cons part parts ih =>
    cases parts with
    | nil => simp
    | cons next parts =>
      rw [List.flatMap_cons, ← ih (List.cons_ne_nil next parts)]
      simp [List.intercalate]

theorem flatMap_document (es : List (String × Toml)) :
    ((if (valueLines es).isEmpty then [] else [valueLines es]) ++ parts [] es).flatMap
      (· ++ ['\n']) = statementLines (statements es) := by
  have hsections : (parts [] es).flatMap (· ++ ['\n']) =
      statementLines ((sections es).flatMap Section.statements) := by
    rw [parts_eq, List.flatMap_map, statementLines, List.flatMap_assoc]
    exact List.flatMap_congr fun s _ => s.chars_nil
  rw [List.flatMap_append, hsections, statements, statementLines_append, isEmpty_valueLines]
  split_ifs
  · rfl
  · rw [statementLines_append, valueLines_eq]
    simp [statementLines, Statement.chars]

/-- The shown text of a document; that of the empty one is an empty line, too. -/
theorem toList_unlines_document (es : List (String × Toml)) :
    (Text.unlines [document es]).toList =
      if statements es = [] then ['\n'] else statementLines (statements es) := by
  have hshown : (Text.unlines [document es]).toList = ['\n'].intercalate
      ((if (valueLines es).isEmpty then [] else [valueLines es]) ++ parts [] es) ++ ['\n'] := by
    simp [Text.unlines, document]
  have hflat := flatMap_document es
  rw [hshown]
  generalize (if (valueLines es).isEmpty then [] else [valueLines es]) ++ parts [] es = all
    at hflat ⊢
  cases all with
  | nil =>
    rw [if_pos (statementLines_eq_nil_iff.1 hflat.symm)]
    rfl
  | cons part all =>
    have hne : statements es ≠ [] := fun hnil => by simp [hnil, statementLines] at hflat
    rw [if_neg hne, ← hflat, intercalate_append (List.cons_ne_nil part all)]

/-! ### Reading -/

/-- No document starts with the mark that is dropped. -/
theorem dropMark_statementLines (ss : List Statement) :
    Parser.dropMark (statementLines ss) = statementLines ss := by
  have hhead {c : Char} (cs : List Char) (hc : c.toNat ≠ 0xfeff) :
      Parser.dropMark (c :: cs) = c :: cs := if_neg hc
  obtain _ | ⟨s, ss⟩ := ss
  · rfl
  have hsplit : statementLines (s :: ss) = s.chars ++ '\n' :: statementLines ss := by
    simp [statementLines]
  rw [hsplit]
  cases s with
  | blank => exact hhead _ (by decide)
  | head element names => cases element <;> exact hhead _ (by decide)
  | give k v =>
    obtain ⟨c, cs, heq, hc⟩ := exists_nameChars k
    rw [Statement.chars, heq]
    refine hhead _ fun hmark => ?_
    rw [← Char.ofNat_toNat c, hmark] at hc
    exact absurd hc (by decide)

theorem readable_statements {es : List (String × Toml)} (h : ∀ e ∈ es, Laid depthMax e.2) :
    ∀ s ∈ statements es, s.Readable := by
  intro s hs
  rw [statements, List.mem_append, List.mem_flatMap] at hs
  rcases hs with hs | ⟨t, ht, hs⟩
  · split_ifs at hs
    · cases hs
    · rw [List.mem_append, List.mem_map, List.mem_singleton] at hs
      rcases hs with ⟨e, he, rfl⟩ | rfl
      · exact (h e (mem_direct.1 he).1).plain_of_direct (mem_direct.1 he).2
      · trivial
  · exact (readable_sections h t ht).statement s hs

/-- The statements of a document build what its sections build. -/
theorem take_document (es : List (String × Toml)) :
    ((statements es).foldlM Statement.take .empty).map Draft.entries =
      (Section.give [] (direct es) []).bind (Section.readAll (sections es)) := by
  have hdirect : (if (direct es).isEmpty then [] else
      (direct es).map (fun e => Statement.give e.1 e.2) ++ [.blank]).foldlM Statement.take .empty =
        (Section.give [] (direct es) []).map fun S => ⟨S, []⟩ := by
    split_ifs with hempty
    · rw [List.isEmpty_iff.1 hempty]
      rfl
    · rw [List.foldlM_append, Section.take_give]
      show (Option.map _ (Section.give [] (direct es) [])).bind _ = _
      cases Section.give [] (direct es) [] <;> rfl
  rw [statements, List.foldlM_append, hdirect]
  cases Section.give [] (direct es) [] with
  | none => rfl
  | some S => exact Section.take_sections (sections es) ⟨S, []⟩

/-- The document of a table is read as the table, with the direct entries of every table in front
of the others. -/
theorem parse?_document {es : List (String × Toml)} (hn : (es.map Prod.fst).Nodup)
    (h : ∀ e ∈ es, Laid depthMax e.2) :
    parse? (Text.unlines [document es]) = some (arranged (.table es)) := by
  obtain ⟨S, hbuild, hfinished⟩ := readAll_sections hn h
  have htake := (take_document es).trans hbuild
  have hread : ∃ d, lines ((Text.unlines [document es]).toList.length + 1) .empty
      (Text.unlines [document es]).toList = some d ∧ d.entries = S := by
    rw [toList_unlines_document]
    split_ifs with hempty
    · rw [hempty] at htake
      exact ⟨.empty, rfl, Option.some.inj htake⟩
    · rw [lines_statements hempty (readable_statements h)]
      · exact Option.map_eq_some_iff.1 htake
      · exact Nat.le_succ_of_le (length_le_statementLines _)
  have hmark : Parser.dropMark (Text.unlines [document es]).toList =
      (Text.unlines [document es]).toList := by
    rw [toList_unlines_document]
    split_ifs
    · rfl
    · exact dropMark_statementLines _
  obtain ⟨d, hlines, hd⟩ := hread
  unfold parse?
  dsimp only
  rw [hmark, hlines, Option.map_some, hd, hfinished, arranged]

end Parley.Toml
