/-
Lists of pairs in the form of a query (`application/x-www-form-urlencoded`). `Form.read` takes any
text for such a list: pieces between ampersands that are not empty, a name up to the first equals
sign, plus signs for blanks, and percent signs for bytes of UTF-8. What `Query.encode` writes is
read back pair by pair (`read_encode`), and none of the characters that part an address or a list
occurs in a name or a value that was written.
-/
import Parley.Http.Query
import Parley.Proofs.Text.Utf8

namespace Parley.Http

namespace Form

/-! ## Reading -/

/-- The bytes of a name or a value. A percent sign without two digits stands for itself. -/
def bytes : List Char → List UInt8
  | [] => []
  | '+' :: cs => 0x20 :: bytes cs
  | '%' :: h :: l :: cs =>
    match Text.hexValue? h, Text.hexValue? l with
    | some x, some y => UInt8.ofNat (x * 16 + y) :: bytes cs
    | _, _ => 0x25 :: bytes (h :: l :: cs)
  | c :: cs => String.utf8EncodeChar c ++ bytes cs

theorem bytes_cons {c : Char} (hplus : c ≠ '+') (hpercent : c ≠ '%') (cs : List Char) :
    bytes (c :: cs) = String.utf8EncodeChar c ++ bytes cs :=
  bytes.eq_4 c cs hplus fun _ _ _ h => absurd h hpercent

/-- A name or a value. -/
def part (cs : List Char) : String := String.ofList (Text.Utf8.read (bytes cs))

/-- A pair; without an equals sign the value is empty. -/
def pair (cs : List Char) : String × String :=
  (part (cs.takeWhile (· ≠ '=')), part ((cs.dropWhile (· ≠ '=')).drop 1))

/-- The pairs of a text. -/
def read (cs : List Char) : List (String × String) :=
  ((cs.splitOn '&').filter (· ≠ [])).map pair

theorem read_nil : read [] = [] := rfl

/-- A text is taken and dropped as a whole up to a character that it does not have. -/
theorem all_ne_of_not_mem {cs : List Char} {d : Char} (h : d ∉ cs) :
    ∀ c ∈ cs, decide (c ≠ d) = true :=
  fun _ hc => decide_eq_true fun he => h (he ▸ hc)

/-- Lists are read on both sides of an ampersand. -/
theorem read_append (cs ds : List Char) : read (cs ++ '&' :: ds) = read cs ++ read ds := by
  unfold read
  rw [List.splitOn_append_cons_self, List.filter_append, List.map_append]

end Form

namespace Query

/-! ## Names and values -/

theorem isPlain_upperHexDigit {n : Nat} (h : n < 16) : isPlain (Text.upperHexDigit n) = true := by
  revert n
  decide

theorem hexValue?_upperHexDigit {n : Nat} (h : n < 16) :
    Text.hexValue? (Text.upperHexDigit n) = some n := by
  revert n
  decide

theorem bytes_percent (b : UInt8) (cs : List Char) :
    Form.bytes (percent b ++ cs) = b :: Form.bytes cs := by
  have hb : b.toNat < 256 := b.toNat_lt
  show Form.bytes ('%' :: Text.upperHexDigit (b.toNat / 16) ::
    Text.upperHexDigit (b.toNat % 16) :: cs) = _
  rw [Form.bytes, hexValue?_upperHexDigit (by omega), hexValue?_upperHexDigit (by omega)]
  dsimp only
  rw [Nat.div_add_mod', UInt8.ofNat_toNat]

theorem bytes_flatMap_percent (bs : List UInt8) (cs : List Char) :
    Form.bytes (bs.flatMap percent ++ cs) = bs ++ Form.bytes cs := by
  induction bs with
  | nil => rfl
  | cons b bs ih => rw [List.flatMap_cons, List.append_assoc, bytes_percent, ih, List.cons_append]

/-- A written character stands for the bytes of the character. -/
theorem bytes_encodeChar (c : Char) (cs : List Char) :
    Form.bytes (encodeChar c ++ cs) = String.utf8EncodeChar c ++ Form.bytes cs := by
  unfold encodeChar
  split
  · rename_i h
    subst h
    rfl
  split
  · rename_i h
    refine Form.bytes_cons ?_ ?_ cs
    · rintro rfl
      exact absurd h (by decide)
    · rintro rfl
      exact absurd h (by decide)
  · rw [bytes_flatMap_percent]

theorem part_encodePart (s : String) : Form.part (encodePart s) = s := by
  have h (cs : List Char) : Form.bytes (cs.flatMap encodeChar) = cs.flatMap String.utf8EncodeChar := by
    induction cs with
    | nil => rfl
    | cons c cs ih => rw [List.flatMap_cons, bytes_encodeChar, ih, List.flatMap_cons]
  rw [Form.part, encodePart, h, Text.Utf8.read_encode, String.ofList_toList]

theorem mem_percent {b : UInt8} {c : Char} (h : c ∈ percent b) : isPlain c = true ∨ c = '%' := by
  have hb : b.toNat < 256 := b.toNat_lt
  simp only [percent, List.mem_cons, List.not_mem_nil, or_false] at h
  rcases h with rfl | rfl | rfl
  · exact .inr rfl
  · exact .inl (isPlain_upperHexDigit (by omega))
  · exact .inl (isPlain_upperHexDigit (by omega))

theorem mem_encodePart {s : String} {c : Char} (h : c ∈ encodePart s) :
    isPlain c = true ∨ c = '%' ∨ c = '+' := by
  obtain ⟨d, -, hd⟩ := List.mem_flatMap.1 h
  unfold encodeChar at hd
  split at hd
  · exact .inr (.inr (List.mem_singleton.1 hd))
  split at hd
  · rename_i hp
    exact .inl (List.mem_singleton.1 hd ▸ hp)
  · obtain ⟨b, -, hb⟩ := List.mem_flatMap.1 hd
    exact (mem_percent hb).imp_right .inl

/-- The characters that part a list, and the one that ends it in an address, are not written inside
a name or a value. -/
theorem not_mem_encodePart (s : String) {d : Char} (hd : d = '&' ∨ d = '=' ∨ d = '#') :
    d ∉ encodePart s := by
  intro h
  rcases mem_encodePart h with hp | rfl | rfl
  · rcases hd with rfl | rfl | rfl <;> exact absurd hp (by decide)
  · revert hd
    decide
  · revert hd
    decide

/-! ## Lists -/

theorem encodePair_ne_nil (p : String × String) : encodePair p ≠ [] := by
  simp [encodePair]

theorem not_mem_encodePair (p : String × String) {d : Char} (hd : d = '&' ∨ d = '#') :
    d ∉ encodePair p := by
  have hne : d ≠ '=' := by
    rcases hd with rfl | rfl <;> decide
  unfold encodePair
  rw [List.mem_append, List.mem_cons]
  rintro (h | h | h)
  · exact not_mem_encodePart _ (hd.imp_right .inr) h
  · exact hne h
  · exact not_mem_encodePart _ (hd.imp_right .inr) h

theorem pair_encodePair (p : String × String) : Form.pair (encodePair p) = p := by
  have hne := Form.all_ne_of_not_mem (not_mem_encodePart p.1 (d := '=') (.inr (.inl rfl)))
  unfold Form.pair encodePair
  rw [List.takeWhile_append_of_pos hne, List.dropWhile_append_of_pos hne,
    List.takeWhile_cons_of_neg (by decide), List.dropWhile_cons_of_neg (by decide),
    List.append_nil, List.drop_one, List.tail_cons, part_encodePart, part_encodePart]

theorem read_encodePair (p : String × String) : Form.read (encodePair p) = [p] := by
  unfold Form.read
  rw [List.splitOn_eq_singleton (not_mem_encodePair p (.inl rfl))]
  simp [encodePair_ne_nil, pair_encodePair]

theorem encode_cons (p : String × String) {ps : List (String × String)} (h : ps ≠ []) :
    encode (p :: ps) = encodePair p ++ '&' :: encode ps := by
  cases ps with
  | nil => exact absurd rfl h
  | cons q qs => rfl

/-- What is written is read back: every pair, with its name and its value, in order. -/
theorem read_encode (ps : List (String × String)) : Form.read (encode ps) = ps := by
  induction ps with
  | nil => rfl
  | cons p ps ih =>
    by_cases h : ps = []
    · subst h
      exact read_encodePair p
    · rw [encode_cons p h, Form.read_append, read_encodePair, ih, List.singleton_append]

theorem number_sign_not_mem_encode (ps : List (String × String)) : '#' ∉ encode ps := by
  induction ps with
  | nil => exact List.not_mem_nil
  | cons p ps ih =>
    by_cases h : ps = []
    · subst h
      exact not_mem_encodePair p (.inr rfl)
    · rw [encode_cons p h, List.mem_append, List.mem_cons]
      rintro (hp | hc | hps)
      · exact not_mem_encodePair p (.inr rfl) hp
      · cases hc
      · exact ih hps

end Query

end Parley.Http
