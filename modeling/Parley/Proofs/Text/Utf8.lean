/-
Reading bytes as UTF-8. Every list of bytes is read: where the bytes are those of no character, the
replacement character stands for the longest start of a character that they have, or for a single
byte. What was written as UTF-8 is read back as it was (`read_encode`).
-/

namespace Parley.Text.Utf8

/-- The character that stands for bytes that are no character. -/
def replacement : Char := Char.ofNat 0xfffd

/-- A character of which some bytes have been read: how many come behind the next one, the bounds
of the next one, and the bits that were read. -/
structure Begun where
  more : Nat
  lower : Nat
  upper : Nat
  bits : Nat

/-- The bounds of a byte that is not the first of its character, if no others apply. -/
def Begun.following (more bits : Nat) : Begun := ⟨more, 0x80, 0xbf, bits⟩

/-- The first byte of a character of several bytes. Some second bytes are left out, as they would
make a character that has fewer bytes, or half of a pair, or none. -/
def lead? (b : Nat) : Option Begun :=
  if b < 0xc2 then none
  else if b < 0xe0 then some (.following 0 (b - 0xc0))
  else if b < 0xf0 then
    some ⟨1, if b = 0xe0 then 0xa0 else 0x80, if b = 0xed then 0x9f else 0xbf, b - 0xe0⟩
  else if b < 0xf5 then
    some ⟨2, if b = 0xf0 then 0x90 else 0x80, if b = 0xf4 then 0x8f else 0xbf, b - 0xf0⟩
  else none

/-- What comes of a byte at the start of a character. -/
def start (b : Nat) : List Char × Option Begun :=
  if b < 0x80 then ([Char.ofNat b], none)
  else
    match lead? b with
    | some p => ([], some p)
    | none => ([replacement], none)

/-- What comes of a further byte. -/
def Begun.next (p : Begun) (b : Nat) : List Char × Option Begun :=
  if p.lower ≤ b ∧ b ≤ p.upper then
    match p.more with
    | 0 => ([Char.ofNat (p.bits * 64 + b % 64)], none)
    | n + 1 => ([], some (.following n (p.bits * 64 + b % 64)))
  else (replacement :: (start b).1, (start b).2)

/-- The characters of bytes behind those of a character that was begun. -/
def readFrom : Option Begun → List UInt8 → List Char
  | none, [] => []
  | some _, [] => [replacement]
  | none, b :: bs => (start b.toNat).1 ++ readFrom (start b.toNat).2 bs
  | some p, b :: bs => (p.next b.toNat).1 ++ readFrom (p.next b.toNat).2 bs

/-- The characters of bytes. -/
def read (bs : List UInt8) : List Char := readFrom none bs

/-! ## One character -/

section Character

variable (bs : List UInt8)

theorem readFrom_single {n : Nat} (h : n < 0x80) :
    readFrom none (UInt8.ofNat n :: bs) = Char.ofNat n :: read bs := by
  rw [readFrom, UInt8.toNat_ofNat_of_lt' (Nat.lt_trans h (by decide)), start, if_pos h]
  rfl

theorem readFrom_lead {n : Nat} {p : Begun} (hn : n < 256) (hp : lead? n = some p) :
    readFrom none (UInt8.ofNat n :: bs) = readFrom (some p) bs := by
  have h80 : ¬ n < 0x80 := by
    intro h
    unfold lead? at hp
    rw [if_pos (by omega)] at hp
    cases hp
  rw [readFrom, UInt8.toNat_ofNat_of_lt' hn, start, if_neg h80, hp]
  rfl

theorem readFrom_next {m l u bits n : Nat} (hn : n < 256) (hl : l ≤ n) (hu : n ≤ u) :
    readFrom (some ⟨m + 1, l, u, bits⟩) (UInt8.ofNat n :: bs) =
      readFrom (some (.following m (bits * 64 + n % 64))) bs := by
  rw [readFrom, UInt8.toNat_ofNat_of_lt' hn, Begun.next, if_pos ⟨hl, hu⟩]
  rfl

theorem readFrom_last {l u bits n : Nat} (hn : n < 256) (hl : l ≤ n) (hu : n ≤ u) :
    readFrom (some ⟨0, l, u, bits⟩) (UInt8.ofNat n :: bs) =
      Char.ofNat (bits * 64 + n % 64) :: read bs := by
  rw [readFrom, UInt8.toNat_ofNat_of_lt' hn, Begun.next, if_pos ⟨hl, hu⟩]
  rfl

/-- A character is read back from its bytes, whatever comes behind them. -/
theorem read_encodeChar (c : Char) : read (String.utf8EncodeChar c ++ bs) = c :: read bs := by
  obtain ⟨v, hv⟩ : ∃ v, v = c.toNat := ⟨_, rfl⟩
  have hvalid : v < 0xd800 ∨ 0xdfff < v ∧ v < 0x110000 := hv ▸ c.valid
  have hc : ∀ n, n = v → Char.ofNat n = c := fun n hn => hn ▸ hv ▸ Char.ofNat_toNat c
  unfold read String.utf8EncodeChar
  simp only [show c.val.toNat = v from hv.symm]
  -- the cases are those of the number of bytes
  split
  · rw [List.singleton_append, readFrom_single _ (by omega), hc v rfl]
    rfl
  split
  · have hp : lead? (v / 64 % 0x20 + 0xc0) = some (.following 0 (v / 64 % 0x20)) := by
      unfold lead?
      rw [if_neg (by omega), if_pos (by omega), Nat.add_sub_cancel]
    rw [List.cons_append, readFrom_lead _ (by omega) hp, List.singleton_append, Begun.following,
      readFrom_last _ (by omega) (by omega) (by omega), hc _ (by omega)]
    rfl
  split
  · have hp : lead? (v / 4096 % 0x10 + 0xe0) =
        some ⟨1, if v / 4096 % 0x10 + 0xe0 = 0xe0 then 0xa0 else 0x80,
          if v / 4096 % 0x10 + 0xe0 = 0xed then 0x9f else 0xbf, v / 4096 % 0x10⟩ := by
      unfold lead?
      rw [if_neg (by omega), if_neg (by omega), if_pos (by omega), Nat.add_sub_cancel]
    rw [List.cons_append, readFrom_lead _ (by omega) hp, List.cons_append,
      readFrom_next _ (by omega) (by split <;> omega) (by split <;> omega), List.singleton_append,
      Begun.following, readFrom_last _ (by omega) (by omega) (by omega), hc _ (by omega)]
    rfl
  · have hp : lead? (v / 262144 % 0x08 + 0xf0) =
        some ⟨2, if v / 262144 % 0x08 + 0xf0 = 0xf0 then 0x90 else 0x80,
          if v / 262144 % 0x08 + 0xf0 = 0xf4 then 0x8f else 0xbf, v / 262144 % 0x08⟩ := by
      unfold lead?
      rw [if_neg (by omega), if_neg (by omega), if_neg (by omega), if_pos (by omega),
        Nat.add_sub_cancel]
    rw [List.cons_append, readFrom_lead _ (by omega) hp, List.cons_append,
      readFrom_next _ (by omega) (by split <;> omega) (by split <;> omega), List.cons_append,
      Begun.following, readFrom_next _ (by omega) (by omega) (by omega), List.singleton_append,
      Begun.following, readFrom_last _ (by omega) (by omega) (by omega), hc _ (by omega)]
    rfl

end Character

/-- What is written as UTF-8 is read back. -/
theorem read_encode (cs : List Char) : read (cs.flatMap String.utf8EncodeChar) = cs := by
  induction cs with
  | nil => rfl
  | cons c cs ih => rw [List.flatMap_cons, read_encodeChar, ih]

end Parley.Text.Utf8
