/-
Configurations that come into force. Whatever file and environment they are read from, they keep to
what the types of their fields promise (`wf_of_load`).
-/
import Parley.Proofs.Config.Loading
import Parley.Proofs.Http.Wire
import Parley.Proofs.Json.Admission
import Mathlib.Algebra.Group.Int.Defs
import Mathlib.Algebra.Group.Nat.Defs

namespace Parley.Config

open Json

/-- What the types of the fields promise: a number of 32 bits, and dictionaries whose names
ascend. -/
structure WF (c : Config) : Prop where
  device : ∀ n ∈ c.device, n < 2 ^ 32
  auth : c.auth.Ordered
  envs : ∀ e ∈ c.servers, e.server.env.Ordered

/-! ## Configurations that were read -/

theorem lt_of_natural {v : Json} {n : Nat} (h : Decode.natural 32 v = .ok n) : n < 2 ^ 32 := by
  have hbound {i : Int} (h : Decode.integer 0 (2 ^ 32 - 1) v = .ok i) : 0 ≤ i ∧ i ≤ 2 ^ 32 - 1 := by
    unfold Decode.integer at h
    split at h
    · split at h
      · rename_i hi
        cases h
        exact hi
      · cases h
    · cases h
  have hread : Decode.natural 32 v = (Decode.integer 0 (2 ^ 32 - 1) v).map Int.toNat := rfl
  rw [hread] at h
  cases hi : Decode.integer 0 (2 ^ 32 - 1) v with
  | error e =>
    rw [hi] at h
    cases h
  | ok i =>
    rw [hi] at h
    obtain ⟨hlow, hhigh⟩ := hbound hi
    obtain rfl : i.toNat = n := Except.ok.inj h
    omega

theorem read_of_decodeOpen {α : Type} {fs : Fields α} {v : Json} {a : α}
    (h : fs.decodeOpen v = .ok a) : ∃ r, fs.read r 0 = .ok a := by
  cases v with
  | obj ms => exact ⟨.named ms, Fields.ok_of_unlocated h⟩
  | arr vs => exact ⟨.positional vs, Fields.ok_of_unlocated h⟩
  | null | bool | num | str => cases h

theorem Entry.ordered_of_decode {v : Json} {e : Entry} (h : Entry.decode v = .ok e) :
    e.server.env.Ordered := by
  obtain ⟨r, h₆⟩ := read_of_decodeOpen h
  obtain ⟨_, _, h₅, -, rfl⟩ := Fields.read_seq h₆
  obtain ⟨_, _, h₄, -, rfl⟩ := Fields.read_seq h₅
  obtain ⟨_, env, h₃, henv, rfl⟩ := Fields.read_seq h₄
  obtain ⟨_, _, h₂, -, rfl⟩ := Fields.read_seq h₃
  obtain ⟨_, _, h₁, -, rfl⟩ := Fields.read_seq h₂
  obtain ⟨_, -, rfl⟩ := Fields.read_map h₁
  show env.Ordered
  rcases Fields.read_defaulted_iff.1 henv with ⟨-, rfl⟩ | ⟨v, -, hv⟩
  · exact Dictionary.ordered_nil
  · exact Decode.ordered_of_dictionary hv

theorem exists_of_mem_list {α : Type} {d : Decode α} {v : Json} {as : List α} {a : α}
    (h : Decode.list d v = .ok as) (ha : a ∈ as) : ∃ u, d u = .ok a := by
  cases v with
  | arr vs =>
    have hread : List.Forall₂ (fun v a => d v = .ok a) vs as := Decode.mapM_eq_ok_iff.1 h
    exact Decode.exists_forall₂_iff.1 ⟨vs, hread.flip⟩ a ha
  | null | bool | num | str | obj => cases h

theorem wf_of_decode {env : Environment} {v : Json} {c : Config} (h : decode env v = .ok c) :
    c.WF := by
  obtain ⟨r, h₁₀⟩ := read_of_decodeOpen h
  obtain ⟨_, servers, h₉, hservers, rfl⟩ := Fields.read_seq h₁₀
  obtain ⟨_, auth, h₈, hauth, rfl⟩ := Fields.read_seq h₉
  obtain ⟨_, _, h₇, -, rfl⟩ := Fields.read_seq h₈
  obtain ⟨_, _, h₆, -, rfl⟩ := Fields.read_seq h₇
  obtain ⟨_, _, h₅, -, rfl⟩ := Fields.read_seq h₆
  obtain ⟨_, _, h₄, -, rfl⟩ := Fields.read_seq h₅
  obtain ⟨_, _, h₃, -, rfl⟩ := Fields.read_seq h₄
  obtain ⟨_, device, h₂, hdevice, rfl⟩ := Fields.read_seq h₃
  obtain ⟨_, _, h₁, -, rfl⟩ := Fields.read_seq h₂
  obtain ⟨_, -, rfl⟩ := Fields.read_map h₁
  refine ⟨fun n hn => ?device, ?auth, fun e he => ?envs⟩
  case device =>
    obtain rfl : device = some n := hn
    -- a field that may be absent has absence for its default
    have hread : (Fields.defaulted ["device"] (Decode.natural 32).nullable none).read r _ =
      .ok (some n) := hdevice
    rcases Fields.read_defaulted_iff.1 hread with ⟨-, hnone⟩ | ⟨v, -, hv⟩
    · cases hnone
    · exact lt_of_natural (Fields.of_nullable hv)
  case auth =>
    show auth.Ordered
    rcases Fields.read_defaulted_iff.1 hauth with ⟨-, rfl⟩ | ⟨v, -, hv⟩
    · exact Dictionary.ordered_nil
    · exact Decode.ordered_of_dictionary hv
  case envs =>
    rcases Fields.read_defaulted_iff.1 hservers with ⟨-, rfl⟩ | ⟨v, -, hv⟩
    · cases he
    · obtain ⟨u, hu⟩ := exists_of_mem_list hv he
      exact Entry.ordered_of_decode hu

/-- Every configuration that comes into force is of this kind. -/
theorem wf_of_load {fs : Files} {env : Environment} {c : Config} (h : load fs env = .ok c) :
    c.WF := by
  have hdefault : (default env).WF := ⟨nofun, Dictionary.ordered_nil, nofun⟩
  have hparse {text : String} {g : Config} (h : parse env text = .ok g) : g.WF := by
    unfold parse at h
    split at h
    · cases h
    · rename_i t _
      cases hd : decode env t.toJson with
      | error e =>
        rw [hd] at h
        cases h
      | ok d =>
        rw [hd] at h
        cases h
        exact wf_of_decode hd
  have hfile {g : Config} (h : ofFile fs env = .ok g) : g.WF := by
    unfold ofFile at h
    split at h
    · split at h
      · rename_i hg
        obtain ⟨-, rfl⟩ := validated_eq_ok_iff.1 h
        exact hparse hg
      · cases h
    · split at h
      · cases h
      · cases h
        exact hdefault
  unfold load at h
  split at h
  · cases h
  · rename_i g hg
    obtain ⟨-, rfl⟩ := validated_eq_ok_iff.1 h
    obtain ⟨hdevice, hauth, henvs⟩ := hfile hg
    exact ⟨hdevice, hauth, henvs⟩

end Parley.Config
