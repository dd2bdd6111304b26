/-
A document as sections: a header with the values behind it. What a section does happens at the place
that its names lead to and leaves the rest of the document alone (`Section.read_under`), so the
sections of a table, put below a name, build that table under the name. All of them together build
the table that was written, with the direct values of each table in front (`readAll_sections`).
-/
import Parley.Proofs.Json.Record
import Parley.Proofs.Toml.Value

namespace Parley.Toml

/-! ## Places in a table -/

namespace Node

/-- Changes the table that the names of a header lead to. -/
def reach (f : Entries → Option Entries) (ks : List String) (es : Entries) : Option Entries :=
  alter .passed (fun _ => f) ks .opened es

variable {f : Entries → Option Entries} {S : Entries} {k : String}

/-- How the table came into being makes no difference to what a header does. -/
theorem alter_eq_reach (ks : List String) (origin : Origin) (es : Entries) :
    alter .passed (fun _ => f) ks origin es = reach f ks es := by
  cases ks <;> rfl

theorem lookup_of_not_mem (h : k ∉ S.map Prod.fst) : S.lookup k = none :=
  Option.eq_none_iff_forall_not_mem.2 fun _ hn => h (Json.Members.mem_names_of_lookup hn)

theorem lookup_last (h : k ∉ S.map Prod.fst) (n : Node) : (S ++ [(k, n)]).lookup k = some n := by
  rw [List.lookup_append, lookup_of_not_mem h]
  simp

theorem replace_last (h : k ∉ S.map Prod.fst) (m n : Node) :
    replace (S ++ [(k, m)]) k n = S ++ [(k, n)] := by
  have hS : ∀ e ∈ S, (if e.1 = k then (k, n) else e) = e :=
    fun e he => if_neg fun (hk : e.1 = k) => h (hk ▸ List.mem_map_of_mem he)
  unfold replace
  rw [List.map_append, List.map_congr_left hS, List.map_id']
  simp

/-- A way to put a table under a name: what headers do that lead through the name happens in the
table. -/
def IsPlace (k : String) (g : Entries → Entries) : Prop :=
  ∀ f ks sub, reach f (k :: ks) (g sub) = (reach f ks sub).map g

theorem isPlace_table (h : k ∉ S.map Prod.fst) (origin : Origin) :
    IsPlace k fun sub => S ++ [(k, .table origin sub)] := by
  intro f ks sub
  unfold reach
  rw [alter, lookup_last h]
  simp [replace_last h, alter_eq_reach]

/-- The last table of a list is the one that headers lead to. -/
theorem isPlace_tables (h : k ∉ S.map Prod.fst) (ts : List Entries) :
    IsPlace k fun sub => S ++ [(k, .tables (ts ++ [sub]))] := by
  intro f ks sub
  unfold reach
  rw [alter, lookup_last h]
  simp [replace_last h, alter_eq_reach]

/-- A table that only leads to others comes into being with the first of them. -/
theorem reach_absent (h : k ∉ S.map Prod.fst) (f : Entries → Option Entries) (ks : List String) :
    reach f (k :: ks) S = (reach f ks []).map fun sub => S ++ [(k, .table .passed sub)] := by
  unfold reach
  rw [alter, lookup_of_not_mem h]
  simp only [alter_eq_reach]

/-- Values that have names of their own are put in one behind the other. -/
theorem put_of_not_mem (h : k ∉ S.map Prod.fst) (v : Toml) :
    put [] k v S = some (S ++ [(k, .value v)]) := by
  unfold put
  rw [alter, lookup_of_not_mem h]
  simp

/-! ## What has been built -/

theorem finishedEntries_append (S T : Entries) :
    finishedEntries (S ++ T) = finishedEntries S ++ finishedEntries T := by
  induction S with
  | nil => rfl
  | cons e S ih =>
    obtain ⟨k, n⟩ := e
    rw [List.cons_append, finishedEntries, finishedEntries, ih, List.cons_append]

/-- The nodes of values. -/
def ofValues (es : List (String × Toml)) : Entries :=
  es.map fun e => (e.1, .value e.2)

theorem finishedEntries_ofValues (es : List (String × Toml)) :
    finishedEntries (ofValues es) = es := by
  induction es with
  | nil => rfl
  | cons e es ih =>
    show (e.1, finished (.value e.2)) :: finishedEntries (ofValues es) = _
    rw [ih, finished]

theorem names_ofValues (es : List (String × Toml)) :
    (ofValues es).map Prod.fst = es.map Prod.fst := by
  rw [ofValues, List.map_map]
  rfl

end Node

/-! ## Sections -/

open Node

/-- A header with the values behind it. -/
structure Section where
  element : Bool
  names : List String
  values : List (String × Toml)

namespace Section

/-- The section below a name. -/
def under (k : String) (s : Section) : Section := { s with names := k :: s.names }

/-- Puts values in the table of a header. -/
def give (names : List String) (values : List (String × Toml)) (es : Entries) : Option Entries :=
  values.foldlM (fun es e => Node.putUnder names [] e.1 e.2 es) es

/-- Takes a section: opens its table and puts the values in. -/
def read (s : Section) (es : Entries) : Option Entries :=
  let opening := if s.element then Node.openElement else Node.openTable
  match s.names.getLast? with
  | none => none
  | some name => (opening s.names.dropLast name es).bind (give s.names s.values)

/-- Takes sections one after the other. -/
def readAll (ss : List Section) (es : Entries) : Option Entries :=
  ss.foldlM (fun es s => s.read es) es

theorem readAll_append (ss ts : List Section) (es : Entries) :
    readAll (ss ++ ts) es = (readAll ss es).bind (readAll ts) :=
  List.foldlM_append

/-- Steps that all happen in one place happen there one after the other. -/
theorem foldlM_place {α β : Type} {g : α → α} {inner outer : α → β → Option α} {bs : List β}
    (h : ∀ b ∈ bs, ∀ a, outer (g a) b = (inner a b).map g) (a : α) :
    bs.foldlM outer (g a) = (bs.foldlM inner a).map g := by
  induction bs generalizing a with
  | nil => rfl
  | cons b bs ih =>
    obtain ⟨hb, hbs⟩ := List.forall_mem_cons.1 h
    rw [List.foldlM_cons, List.foldlM_cons, hb]
    cases inner a b with
    | none => rfl
    | some a => exact ih hbs a

section Place

variable {k : String} {g : Entries → Entries}

theorem give_under (hg : IsPlace k g) (names : List String) (values : List (String × Toml))
    (es : Entries) : give (k :: names) values (g es) = (give names values es).map g :=
  foldlM_place (fun _ _ es => hg _ names es) es

/-- The opening of a section, as a change of the table that its last name stands in. -/
theorem read_eq (s : Section) {name : String} (hname : s.names.getLast? = some name)
    (es : Entries) :
    s.read es = (reach ((if s.element then Node.openElement else Node.openTable) [] name)
      s.names.dropLast es).bind (give s.names s.values) := by
  unfold read
  dsimp only
  rw [hname]
  cases s.element <;> rfl

/-- Below a name a section does what it does, in the place that the name leads to. -/
theorem read_under (hg : IsPlace k g) {s : Section} (hs : s.names ≠ []) {whole es : Entries}
    (h : ∀ f ks, reach f (k :: ks) whole = (reach f ks es).map g) :
    (s.under k).read whole = (s.read es).map g := by
  obtain ⟨name, hname⟩ : ∃ name, s.names.getLast? = some name :=
    ⟨_, List.getLast?_eq_some_getLast hs⟩
  have hlast : (s.under k).names.getLast? = some name := by
    rw [under, List.getLast?_cons, hname]
    rfl
  have hinit : (s.under k).names.dropLast = k :: s.names.dropLast := List.dropLast_cons_of_ne_nil hs
  rw [read_eq _ hlast, read_eq s hname, hinit, h]
  show Option.bind (Option.map g (reach ((if s.element then openElement else openTable) [] name)
    s.names.dropLast es)) (give (k :: s.names) s.values) = _
  cases reach ((if s.element then openElement else openTable) [] name) s.names.dropLast es with
  | none => rfl
  | some es => exact give_under hg s.names s.values es

theorem readAll_under (hg : IsPlace k g) {ss : List Section} (hss : ∀ s ∈ ss, s.names ≠ [])
    (es : Entries) : readAll (ss.map (under k)) (g es) = (readAll ss es).map g := by
  unfold readAll
  rw [List.foldlM_map]
  exact foldlM_place (fun s hs es => read_under hg (hss s hs) fun f ks => hg f ks es) es

/-- The place comes into being with the first section below its name. -/
theorem readAll_absent {S : Entries} (hk : k ∉ S.map Prod.fst) {s : Section} {ss : List Section}
    (hss : ∀ t ∈ s :: ss, t.names ≠ []) : readAll ((s :: ss).map (under k)) S =
      (readAll (s :: ss) []).map fun sub => S ++ [(k, .table .passed sub)] := by
  obtain ⟨hs, hss⟩ := List.forall_mem_cons.1 hss
  have hplace := isPlace_table hk .passed
  have hfirst := read_under hplace hs fun f ks => reach_absent hk f ks
  show ((s.under k).read S).bind (readAll (ss.map (under k))) =
    Option.map _ ((s.read []).bind (readAll ss))
  rw [hfirst]
  cases s.read [] with
  | none => rfl
  | some es => exact readAll_under hplace hss es

end Place

end Section

/-! ## The sections of a table -/

/-- The entries of a table that stand directly under its header. -/
def direct (es : List (String × Toml)) : List (String × Toml) :=
  es.filter fun e => !hasHeader e.2

mutual

/-- The sections of a value under a name: none unless the value has a header. A table that only
leads to others has no section of its own. -/
def valueSections (k : String) : Toml → List Section
  | .table es =>
    (if (direct es).isEmpty && !es.isEmpty then [] else [⟨false, [k], direct es⟩])
      ++ (sections es).map (Section.under k)
  | .arr vs => if hasHeader (.arr vs) then elementSections k vs else []
  | _ => []

/-- The sections of the tables in a table. -/
def sections : List (String × Toml) → List Section
  | [] => []
  | (k, v) :: es => valueSections k v ++ sections es

/-- The sections of the tables of a list. -/
def elementSections (k : String) : List Toml → List Section
  | [] => []
  | .table es :: vs =>
    ⟨true, [k], direct es⟩ :: (sections es).map (Section.under k) ++ elementSections k vs
  | _ :: vs => elementSections k vs

end

mutual

/-- The value with the direct entries of every table in front of the others. -/
def arranged : Toml → Toml
  | .table es => .table (direct es ++ headed es)
  | .arr vs => if hasHeader (.arr vs) then .arr (arrangedItems vs) else .arr vs
  | v => v

/-- The tables of a list, each with its direct entries in front. -/
def arrangedItems : List Toml → List Toml
  | [] => []
  | v :: vs => arranged v :: arrangedItems vs

/-- The entries of a table that have headers of their own. -/
def headed : List (String × Toml) → List (String × Toml)
  | [] => []
  | (k, v) :: es => if hasHeader v then (k, arranged v) :: headed es else headed es

end

/-- A value of a document: one that stands behind its name, or tables that are nested `depth` deep
at most and have no name twice. -/
inductive Laid : (depth : Nat) → Toml → Prop
  | value {depth : Nat} {v : Toml} : Plain depthMax v → Laid depth v
  | table {depth : Nat} {es : List (String × Toml)} : (es.map Prod.fst).Nodup →
    (∀ e ∈ es, Laid depth e.2) → Laid (depth + 1) (.table es)
  | tables {depth : Nat} {ess : List (List (String × Toml))} : ess ≠ [] →
    (∀ es ∈ ess, (es.map Prod.fst).Nodup) → (∀ es ∈ ess, ∀ e ∈ es, Laid depth e.2) →
    Laid (depth + 1) (.arr (ess.map .table))

theorem Plain.not_hasHeader {depth : Nat} {v : Toml} (h : Plain depth v) : hasHeader v = false := by
  cases h with
  | str | bool | int => rfl
  | @arr _ vs hvs =>
    obtain _ | ⟨v, vs⟩ := vs
    · rfl
    · cases hvs v List.mem_cons_self <;> rfl

/-- A value without a header has no section. -/
theorem valueSections_eq_nil {v : Toml} (h : hasHeader v = false) (k : String) :
    valueSections k v = [] := by
  cases v with
  | table => cases h
  | arr vs =>
    rw [valueSections, h]
    rfl
  | str | int | float | bool | date => rfl

theorem hasHeader_tables {ess : List (List (String × Toml))} (h : ess ≠ []) :
    hasHeader (.arr (ess.map .table)) = true := by
  obtain ⟨es, ess, rfl⟩ := List.exists_cons_of_ne_nil h
  simp [hasHeader, isTable]

theorem mem_direct {es : List (String × Toml)} {e : String × Toml} :
    e ∈ direct es ↔ e ∈ es ∧ hasHeader e.2 = false := by
  simp [direct]

/-- The values behind a header are plain. -/
theorem Laid.plain_of_direct {depth : Nat} {v : Toml} (h : Laid depth v)
    (hv : hasHeader v = false) : Plain depthMax v := by
  cases h with
  | value h => exact h
  | table => cases hv
  | tables hne => rw [hasHeader_tables hne] at hv; cases hv

/-! ### What sections look like -/

/-- A section whose header and values can be read. -/
structure Section.Readable (depth : Nat) (s : Section) : Prop where
  names_ne : s.names ≠ []
  length_le : s.names.length ≤ depth
  plain : ∀ e ∈ s.values, Plain depthMax e.2

theorem Section.Readable.under {depth : Nat} {s : Section} (h : s.Readable depth) (k : String) :
    (s.under k).Readable (depth + 1) where
  names_ne := List.cons_ne_nil k s.names
  length_le := Nat.succ_le_succ h.length_le
  plain := h.plain

theorem readable_own {depth : Nat} (element : Bool) (k : String) {es : List (String × Toml)}
    (h : ∀ e ∈ es, Laid depth e.2) : Section.Readable (depth + 1) ⟨element, [k], direct es⟩ where
  names_ne := List.cons_ne_nil k []
  length_le := Nat.succ_le_succ (Nat.zero_le depth)
  plain e he :=
    let ⟨hmem, hheader⟩ := mem_direct.1 he
    (h e hmem).plain_of_direct hheader

theorem mem_sections {es : List (String × Toml)} {s : Section} :
    s ∈ sections es ↔ ∃ e ∈ es, s ∈ valueSections e.1 e.2 := by
  induction es with
  | nil => simp [sections]
  | cons e es ih => simp [sections, ih]

theorem mem_elementSections {k : String} {ess : List (List (String × Toml))} {s : Section} :
    s ∈ elementSections k (ess.map .table) ↔
      ∃ es ∈ ess, s = ⟨true, [k], direct es⟩ ∨ s ∈ (sections es).map (Section.under k) := by
  induction ess with
  | nil => simp [elementSections]
  | cons es ess ih =>
    rw [List.map_cons, elementSections]
    simp [ih, or_assoc]

/-- Below a name the sections of a table can be read if those of its values can. -/
theorem readable_under {depth : Nat} {es : List (String × Toml)}
    (h : ∀ e ∈ es, ∀ s ∈ valueSections e.1 e.2, s.Readable depth) (k : String) :
    ∀ s ∈ (sections es).map (Section.under k), s.Readable (depth + 1) := by
  intro s hs
  obtain ⟨t, ht, rfl⟩ := List.mem_map.1 hs
  obtain ⟨e, he, ht⟩ := mem_sections.1 ht
  exact (h e he t ht).under k

theorem Laid.readable {depth : Nat} {v : Toml} (h : Laid depth v) (k : String) :
    ∀ s ∈ valueSections k v, s.Readable depth := by
  induction h generalizing k with
  | value h =>
    rw [valueSections_eq_nil h.not_hasHeader]
    exact fun _ hs => absurd hs List.not_mem_nil
  | @table depth es _ hes ih =>
    intro s hs
    rw [valueSections, List.mem_append] at hs
    rcases hs with hs | hs
    · split_ifs at hs
      · cases hs
      · rw [List.mem_singleton.1 hs]
        exact readable_own false k hes
    · exact readable_under (fun e he => ih e he e.1) k s hs
  | @tables depth ess hne _ hess ih =>
    intro s hs
    rw [valueSections, if_pos (hasHeader_tables hne)] at hs
    obtain ⟨es, hes, rfl | hs⟩ := mem_elementSections.1 hs
    · exact readable_own true k (hess es hes)
    · exact readable_under (fun e he => ih es hes e he e.1) k s hs

theorem readable_sections {depth : Nat} {es : List (String × Toml)}
    (h : ∀ e ∈ es, Laid depth e.2) : ∀ s ∈ sections es, s.Readable depth := by
  intro s hs
  obtain ⟨e, he, hs⟩ := mem_sections.1 hs
  exact (h e he).readable e.1 s hs

/-! ### What sections build -/

theorem headed_eq (es : List (String × Toml)) :
    headed es = (es.filter fun e => hasHeader e.2).map fun e => (e.1, arranged e.2) := by
  induction es with
  | nil => rfl
  | cons e es ih =>
    obtain ⟨k, v⟩ := e
    rw [headed, List.filter_cons, ih]
    split_ifs <;> rfl

theorem arranged_of_direct {v : Toml} (h : hasHeader v = false) : arranged v = v := by
  cases v with
  | table => cases h
  | arr vs =>
    rw [arranged, h]
    rfl
  | str | int | float | bool | date => rfl

/-- Only the order of the entries changes. -/
theorem arranged_perm (es : List (String × Toml)) :
    (direct es ++ headed es).Perm (es.map fun e => (e.1, arranged e.2)) := by
  have hdirect : direct es = (direct es).map fun e => (e.1, arranged e.2) := by
    have hid : ∀ e ∈ direct es, (e.1, arranged e.2) = e := fun e he =>
      Prod.ext rfl (arranged_of_direct (mem_direct.1 he).2)
    rw [List.map_congr_left hid, List.map_id']
  rw [hdirect, headed_eq, ← List.map_append]
  exact (List.perm_append_comm.trans (List.filter_append_perm _ es)).map _

theorem Section.give_nil {values : List (String × Toml)} {S : Entries}
    (h : ((S.map Prod.fst) ++ values.map Prod.fst).Nodup) :
    give [] values S = some (S ++ ofValues values) := by
  induction values generalizing S with
  | nil => exact congrArg some (List.append_nil S).symm
  | cons e values ih =>
    have hmem : e.1 ∉ S.map Prod.fst :=
      fun hS => (List.nodup_append.1 h).2.2 _ hS _ List.mem_cons_self rfl
    have hmore := ih (S := S ++ [(e.1, .value e.2)]) (by simpa using h)
    show (Node.putUnder [] [] e.1 e.2 S).bind (give [] values) = _
    have hput : Node.putUnder [] [] e.1 e.2 S = some (S ++ [(e.1, .value e.2)]) :=
      put_of_not_mem hmem e.2
    rw [hput, Option.bind_some, hmore, List.append_assoc]
    rfl

/-- The sections of a table add its tables to a place where none of their names is taken. -/
def Builds (es : List (String × Toml)) : Prop :=
  ∀ S : Entries, (∀ e ∈ es, hasHeader e.2 = true → e.1 ∉ S.map Prod.fst) →
    ∃ N, Section.readAll (sections es) S = some (S ++ N) ∧ finishedEntries N = headed es

/-- The sections of a value add one node, which holds the value. -/
def BuildsValue (v : Toml) : Prop :=
  hasHeader v = true → ∀ (k : String) (S : Entries), k ∉ S.map Prod.fst →
    ∃ n, Section.readAll (valueSections k v) S = some (S ++ [(k, n)]) ∧ finished n = arranged v

theorem builds_of_values {es : List (String × Toml)} (hn : (es.map Prod.fst).Nodup)
    (h : ∀ e ∈ es, BuildsValue e.2) : Builds es := by
  induction es with
  | nil => exact fun S _ => ⟨[], congrArg some (List.append_nil S).symm, rfl⟩
  | cons e es ih =>
    obtain ⟨k, v⟩ := e
    obtain ⟨hk, hn⟩ := List.nodup_cons.1 hn
    obtain ⟨hv, hes⟩ := List.forall_mem_cons.1 h
    intro S hS
    obtain ⟨hSv, hSes⟩ := List.forall_mem_cons.1 hS
    rw [sections, Section.readAll_append, headed]
    cases hheader : hasHeader v with
    | false =>
      rw [valueSections_eq_nil hheader]
      exact ih hn hes S hSes
    | true =>
      obtain ⟨n, hread, hfinished⟩ := hv hheader k S (hSv hheader)
      have hfree : ∀ e ∈ es, hasHeader e.2 = true → e.1 ∉ (S ++ [(k, n)]).map Prod.fst := by
        intro e he hheader hmem
        rw [List.map_append, List.mem_append] at hmem
        rcases hmem with hmem | hmem
        · exact hSes e he hheader hmem
        · obtain rfl : e.1 = k := List.mem_singleton.1 hmem
          exact hk (List.mem_map.2 ⟨e, he, rfl⟩)
      obtain ⟨N, hmore, hN⟩ := ih hn hes (S ++ [(k, n)]) hfree
      refine ⟨(k, n) :: N, ?_, ?_⟩
      · rw [hread, Option.bind_some, hmore, List.append_assoc]
        rfl
      · rw [finishedEntries, hfinished, hN]
        rfl

section Build

variable {es : List (String × Toml)} {k : String} {S : Entries}

/-- Behind the direct values of a table there is room for its tables. -/
theorem Builds.behind_direct (h : Builds es) (hn : (es.map Prod.fst).Nodup) :
    ∃ N, Section.readAll (sections es) (ofValues (direct es)) = some (ofValues (direct es) ++ N) ∧
      finishedEntries N = headed es := by
  refine h _ fun e he hheader hmem => ?_
  rw [names_ofValues] at hmem
  obtain ⟨f, hf, hfe⟩ := List.mem_map.1 hmem
  obtain ⟨hf, hdirect⟩ := mem_direct.1 hf
  obtain rfl := List.inj_on_of_nodup_map hn hf he hfe
  rw [hheader] at hdirect
  cases hdirect

/-- A table with a section of its own is built in the place that the section opens. -/
theorem Builds.opened (h : Builds es) (hn : (es.map Prod.fst).Nodup)
    (hnames : ∀ s ∈ sections es, s.names ≠ []) {g : Entries → Entries} (hg : IsPlace k g)
    (element : Bool)
    (hopen : (if element then openElement else openTable) [] k S = some (g [])) :
    ∃ sub, Section.readAll (⟨element, [k], direct es⟩ :: (sections es).map (Section.under k)) S =
      some (g sub) ∧ finishedEntries sub = direct es ++ headed es := by
  obtain ⟨N, hbuild, hN⟩ := h.behind_direct hn
  have hdirect : ((direct es).map Prod.fst).Nodup := (List.filter_sublist.map Prod.fst).nodup hn
  have hgive : Section.give [k] (direct es) (g []) = some (g (ofValues (direct es))) := by
    rw [Section.give_under hg, Section.give_nil (S := []) hdirect]
    rfl
  have hown : Section.read ⟨element, [k], direct es⟩ S = some (g (ofValues (direct es))) := by
    rw [Section.read_eq _ rfl]
    show (((if element then openElement else openTable) [] k S).bind _) = _
    rw [hopen]
    exact hgive
  refine ⟨ofValues (direct es) ++ N, ?_, ?_⟩
  · show (Section.read _ S).bind (Section.readAll _) = _
    rw [hown, Option.bind_some, Section.readAll_under hg hnames, hbuild]
    rfl
  · rw [finishedEntries_append, finishedEntries_ofValues, hN]

/-- A table without a section of its own comes into being with the first table in it. -/
theorem Builds.passed (h : Builds es) (hnames : ∀ s ∈ sections es, s.names ≠ [])
    (hdirect : direct es = []) (hes : es ≠ []) (hk : k ∉ S.map Prod.fst) :
    ∃ sub, Section.readAll ((sections es).map (Section.under k)) S =
      some (S ++ [(k, .table .passed sub)]) ∧ finishedEntries sub = direct es ++ headed es := by
  obtain ⟨N, hbuild, hN⟩ := h [] fun _ _ _ => List.not_mem_nil
  obtain ⟨s, ss, hsections⟩ : ∃ s ss, sections es = s :: ss := by
    refine List.exists_cons_of_ne_nil fun hnil => ?_
    rw [hnil] at hbuild
    obtain rfl : [] = N := Option.some.inj hbuild
    obtain ⟨⟨l, v⟩, rest, rfl⟩ := List.exists_cons_of_ne_nil hes
    have hheader : hasHeader v = true := by
      by_contra hno
      exact List.not_mem_nil (hdirect ▸ mem_direct.2 ⟨List.mem_cons_self, Bool.eq_false_iff.2 hno⟩)
    rw [headed, if_pos hheader] at hN
    cases hN
  refine ⟨N, ?_, ?_⟩
  · rw [hsections, Section.readAll_absent hk (hsections ▸ hnames), ← hsections, hbuild]
    rfl
  · rw [hN, hdirect, List.nil_append]

/-- The tables of a list are built one behind the other. -/
theorem builds_elements {ess : List (List (String × Toml))}
    (h : ∀ es ∈ ess, Builds es ∧ (es.map Prod.fst).Nodup ∧ ∀ s ∈ sections es, s.names ≠ [])
    (hk : k ∉ S.map Prod.fst) (ts : List Entries) :
    ∃ us, Section.readAll (elementSections k (ess.map .table)) (S ++ [(k, .tables ts)]) =
      some (S ++ [(k, .tables (ts ++ us))]) ∧
        finishedTables us = arrangedItems (ess.map .table) := by
  induction ess generalizing ts with
  | nil => exact ⟨[], by rw [List.append_nil]; rfl, rfl⟩
  | cons es ess ih =>
    obtain ⟨⟨hbuilds, hn, hnames⟩, hess⟩ := List.forall_mem_cons.1 h
    have hopen : openElement [] k (S ++ [(k, .tables ts)]) =
        some (S ++ [(k, .tables (ts ++ [[]]))]) := by
      unfold openElement
      rw [alter, lookup_last hk]
      simp only [replace_last hk]
    obtain ⟨sub, hread, hsub⟩ := hbuilds.opened hn hnames (isPlace_tables hk ts) true hopen
    obtain ⟨us, hmore, hus⟩ := ih hess (ts ++ [sub])
    refine ⟨sub :: us, ?_, ?_⟩
    · rw [List.map_cons, elementSections, Section.readAll_append, hread, Option.bind_some, hmore,
        List.append_assoc]
      rfl
    · rw [finishedTables, hsub, hus]
      rfl

end Build

theorem Laid.builds {depth : Nat} {v : Toml} (h : Laid depth v) : BuildsValue v := by
  induction h with
  | value h =>
    intro hheader
    rw [h.not_hasHeader] at hheader
    cases hheader
  | @table depth es hn hes ih =>
    intro _ k S hk
    have hbuilds := builds_of_values hn ih
    have hnames : ∀ s ∈ sections es, s.names ≠ [] := fun s hs =>
      (readable_sections hes s hs).names_ne
    rw [valueSections]
    split_ifs with hown
    · rw [Bool.and_eq_true, Bool.not_eq_true', List.isEmpty_iff, List.isEmpty_eq_false_iff] at hown
      obtain ⟨sub, hread, hsub⟩ := hbuilds.passed hnames hown.1 hown.2 hk
      exact ⟨.table .passed sub, hread, congrArg Toml.table hsub⟩
    · have hopen : openTable [] k S = some (S ++ [(k, .table .opened [])]) := by
        unfold openTable
        rw [alter, lookup_of_not_mem hk]
      obtain ⟨sub, hread, hsub⟩ :=
        hbuilds.opened hn hnames (isPlace_table hk .opened) false hopen
      exact ⟨.table .opened sub, hread, congrArg Toml.table hsub⟩
  | @tables depth ess hne hn hess ih =>
    intro hheader k S hk
    obtain ⟨es, ess, rfl⟩ := List.exists_cons_of_ne_nil hne
    have hbuilds : ∀ es' ∈ es :: ess, Builds es' ∧ (es'.map Prod.fst).Nodup ∧
        ∀ s ∈ sections es', s.names ≠ [] := fun es' hmem =>
      ⟨builds_of_values (hn es' hmem) (ih es' hmem), hn es' hmem,
        fun s hs => (readable_sections (hess es' hmem) s hs).names_ne⟩
    obtain ⟨⟨hfirst, hnfirst, hnames⟩, hothers⟩ := List.forall_mem_cons.1 hbuilds
    have hopen : openElement [] k S = some (S ++ [(k, .tables ([] ++ [[]]))]) := by
      unfold openElement
      rw [alter, lookup_of_not_mem hk]
      rfl
    obtain ⟨sub, hread, hsub⟩ :=
      hfirst.opened hnfirst hnames (isPlace_tables hk []) true hopen
    obtain ⟨us, hmore, hus⟩ := builds_elements hothers hk ([] ++ [sub])
    refine ⟨.tables ([sub] ++ us), ?_, ?_⟩
    · rw [valueSections, if_pos hheader, List.map_cons, elementSections, Section.readAll_append,
        hread, Option.bind_some, hmore]
      rfl
    · rw [arranged, if_pos hheader]
      show Toml.arr (.table (finishedEntries sub) :: finishedTables us) = _
      rw [hsub, hus]
      rfl

/-- The sections of a table, behind its direct values, build the table. -/
theorem readAll_sections {depth : Nat} {es : List (String × Toml)} (hn : (es.map Prod.fst).Nodup)
    (h : ∀ e ∈ es, Laid depth e.2) :
    ∃ S, (Section.give [] (direct es) []).bind (Section.readAll (sections es)) = some S ∧
      finishedEntries S = direct es ++ headed es := by
  obtain ⟨N, hbuild, hN⟩ := (builds_of_values hn fun e he => (h e he).builds).behind_direct hn
  have hdirect : ((direct es).map Prod.fst).Nodup := (List.filter_sublist.map Prod.fst).nodup hn
  refine ⟨ofValues (direct es) ++ N, ?_, ?_⟩
  · rw [Section.give_nil (S := []) hdirect]
    exact hbuild
  · rw [finishedEntries_append, finishedEntries_ofValues, hN]

end Parley.Toml
