/-
Paths and names of files. A name in a directory is the last step of the way that joins the two
(`steps_join`), so a file that can be read there is among the names of the directory
(`mem_namesIn_of_read`); a name is made of a stem and an extension in one way (`stem?_eq_some_iff`).
-/
import Parley.Files

namespace Parley.Files

variable {fs : Files} {dir name content : String}

/-! ## The way to a file -/

/-- A name that is a step of a way by itself. -/
structure IsStep (name : String) : Prop where
  noSlash : '/' ∉ name.toList
  notEmpty : name.toList ≠ []
  notHere : name.toList ≠ ['.']
  notBack : name.toList ≠ ['.', '.']

/-- What is put behind a slash is one more step. -/
theorem steps_slash (dir : String) (h : IsStep name) :
    steps (dir ++ "/" ++ name) = steps dir ++ [name] := by
  have hsplit : (dir ++ "/" ++ name).toList.splitOn '/' =
      dir.toList.splitOn '/' ++ [name.toList] := by
    have hlist : (dir ++ "/" ++ name).toList = dir.toList ++ '/' :: name.toList := by simp
    rw [hlist, List.splitOn_append_cons_self, List.splitOn_eq_singleton h.noSlash]
  have hstay : ¬ (name.toList = [] ∨ name.toList = ['.']) := not_or.2 ⟨h.notEmpty, h.notHere⟩
  unfold steps
  rw [hsplit, List.foldl_append, List.foldl_cons, List.foldl_nil, if_neg hstay,
    if_neg h.notBack, String.ofList_toList]

/-- A slash at the end of a path leads nowhere else. -/
theorem steps_append_slash (dir : String) : steps (dir ++ "/") = steps dir := by
  have hsplit : (dir ++ "/").toList.splitOn '/' = dir.toList.splitOn '/' ++ [[]] := by
    rw [String.toList_append]
    exact List.splitOn_append_cons_self _ _
  unfold steps
  rw [hsplit, List.foldl_append, List.foldl_cons, List.foldl_nil, if_pos (.inl rfl)]

theorem steps_join (hd : dir ≠ "") (h : IsStep name) :
    steps (join dir name) = steps dir ++ [name] := by
  unfold join
  split
  · rename_i hs
    -- a name does not start with a slash
    rw [String.startsWith_string_iff] at hs
    exact absurd (hs.mem List.mem_cons_self) h.noSlash
  split
  · rename_i he
    exact absurd (String.isEmpty_iff.1 he) hd
  split
  · rename_i hs
    have hs : dir.toSlice.endsWith "/" = true := hs
    rw [String.Slice.endsWith_string_iff, String.copy_toSlice] at hs
    obtain ⟨front, hfront⟩ := hs
    have hdir : dir = String.ofList front ++ "/" := by
      rw [← String.toList_inj, String.toList_append, String.toList_ofList]
      exact hfront.symm
    rw [hdir, steps_append_slash, steps_slash _ h]
  · exact steps_slash dir h

theorem read?_join (hd : dir ≠ "") (h : IsStep name) :
    fs.read? (join dir name) = fs.entries.lookup (steps dir ++ [name]) := by
  rw [read?, steps_join hd h]

/-! ## Names in a directory -/

theorem nameIn?_append (dir : List String) (name : String) :
    nameIn? dir (dir ++ [name]) = some name := by
  simp [nameIn?]

/-- A file that can be read in a directory has its name there. -/
theorem mem_namesIn_of_read (hd : dir ≠ "") (h : IsStep name)
    (hr : fs.read? (join dir name) = some content) : name ∈ fs.namesIn dir := by
  rw [read?_join hd h] at hr
  unfold namesIn
  rw [if_neg (mt String.isEmpty_iff.1 hd), List.mem_eraseDups, List.mem_filterMap]
  obtain ⟨before, behind, heq, -⟩ := List.lookup_eq_some_iff.1 hr
  refine ⟨steps dir ++ [name], List.mem_append_left _ ?_, nameIn?_append _ _⟩
  rw [heq, List.map_append, List.map_cons]
  exact List.mem_append_right _ List.mem_cons_self

/-! ## The empty path -/

@[simp] theorem namesIn_empty (fs : Files) : fs.namesIn "" = [] :=
  if_pos rfl

@[simp] theorem join_empty (name : String) : join "" name = name := by
  unfold join
  split <;> rfl

/-! ## Stems and extensions -/

/-- A name with an extension that is not its beginning has the rest as its stem. -/
theorem stem?_eq_some_iff {extension stem : String} (h : '.' ∉ extension.toList) :
    stem? extension name = some stem ↔ stem ≠ "" ∧ name = stem ++ "." ++ extension := by
  have hjoined : (stem ++ "." ++ extension).toList = stem.toList ++ '.' :: extension.toList := by
    simp
  have hext : (!extension.toList.contains '.') = true := by simpa using h
  have hempty : stem ≠ "" ↔ 0 < stem.toList.length := by
    rw [List.length_pos_iff, ne_eq, ne_eq, String.toList_eq_nil_iff]
  rw [← String.toList_inj, hjoined, hempty]
  unfold stem?
  dsimp only
  rw [Option.ite_none_right_eq_some]
  constructor
  · rintro ⟨⟨hsuffix, hlen, -⟩, hstem⟩
    obtain ⟨front, hfront⟩ := List.isSuffixOf_iff_suffix.1 hsuffix
    rw [← hfront, List.length_append, Nat.add_sub_cancel, List.take_left' rfl] at hstem
    cases hstem
    rw [← hfront, List.length_append] at hlen
    rw [String.toList_ofList]
    exact ⟨by omega, hfront.symm⟩
  · rintro ⟨hlen, hname⟩
    rw [hname, List.length_append, Nat.add_sub_cancel, List.take_left' rfl, String.ofList_toList]
    exact ⟨⟨List.isSuffixOf_iff_suffix.2 ⟨_, rfl⟩, by omega, hext⟩, rfl⟩

end Parley.Files
