/-
The wire form of requests. A request is read back as it was written when its headers stand in
ascending order (`Request.decode_toJson`), and so do the headers of every request that a tool makes:
those of its definition are read into a dictionary, and credentials are inserted into it.
-/
import Parley.Http.Authenticator
import Parley.Proofs.Dictionary
import Parley.Proofs.Json.Record
import Parley.Tool

namespace Parley

open Json

/-! ## Definitions -/

theorem Json.Decode.ordered_of_dictionary {α : Type} {d : Decode α} {v : Json} {dict : Dictionary α}
    (h : (dictionary d v).map Dictionary.ofEntries = .ok dict) : dict.Ordered := by
  cases hd : dictionary d v with
  | error e =>
    rw [hd] at h
    cases h
  | ok es =>
    rw [hd] at h
    cases h
    exact Dictionary.ordered_ofEntries es

namespace Http

theorem ordered_of_decodeTexts {v : Json} {d : Dictionary String} (h : decodeTexts v = .ok d) :
    d.Ordered :=
  Decode.ordered_of_dictionary h

end Http

namespace Definition

theorem Rest.ordered_of_decode {v : Json} {b : Rest} (h : Rest.decode v = .ok b) :
    b.headers.Ordered := by
  obtain ⟨r, h₆, -⟩ := Fields.read_of_decode h
  obtain ⟨_, _, h₅, -, rfl⟩ := Fields.read_seq h₆
  obtain ⟨_, _, h₄, -, rfl⟩ := Fields.read_seq h₅
  obtain ⟨_, _, h₃, -, rfl⟩ := Fields.read_seq h₄
  obtain ⟨_, headers, h₂, hh, rfl⟩ := Fields.read_seq h₃
  obtain ⟨_, _, h₁, -, rfl⟩ := Fields.read_seq h₂
  obtain ⟨_, -, rfl⟩ := Fields.read_map h₁
  show headers.Ordered
  rcases Fields.read_defaulted_iff.1 hh with ⟨-, rfl⟩ | ⟨v, -, hv⟩
  · exact Dictionary.ordered_nil
  · exact Http.ordered_of_decodeTexts hv

theorem ordered_of_decode {v : Json} {desc : Tool.Description} {b : Rest}
    (h : Definition.decode v = .ok (.restApi desc b)) : b.headers.Ordered := by
  obtain ⟨name, d, rest, hf, hd, -⟩ := Decode.ok_of_tagged h
  unfold form at hf
  split at hf
  · cases hf
    obtain ⟨r, hr, -⟩ := Fields.read_of_decode hd
    obtain ⟨_, _, hr, -, he⟩ := Fields.read_seq hr
    obtain ⟨_, -, rfl⟩ := Fields.read_map hr
    cases he
  split at hf
  · cases hf
    obtain ⟨r, hr, -⟩ := Fields.read_of_decode hd
    obtain ⟨_, _, hr, hb, he⟩ := Fields.read_seq hr
    obtain ⟨_, -, rfl⟩ := Fields.read_map hr
    cases he
    obtain ⟨v, -, hv⟩ := Fields.read_required_iff.1 hb
    exact Rest.ordered_of_decode hv
  · cases hf

end Definition

/-! ## Requests -/

namespace Http

theorem decodeTexts_toJson {d : Dictionary String} (h : d.Ordered) :
    decodeTexts (textsToJson d) = .ok d := by
  unfold decodeTexts textsToJson
  rw [Decode.dictionary_map fun e _ => rfl]
  exact congrArg Except.ok h.ofEntries_eq

namespace Request

/-- The members of a request, those that are left out included. -/
def members (r : Request) : List (String × Option Json) :=
  [("url", some (.str r.url)), ("method", some (.str r.method)),
    ("headers", some (textsToJson r.headers)), ("body", r.body.map .str)]

theorem members_nodup (r : Request) : (r.members.map Prod.fst).Nodup := by
  show ["url", "method", "headers", "body"].Nodup
  decide

/-- A request is read back as it was written. -/
theorem decode_toJson {r : Request} (h : r.headers.Ordered) : decode r.toJson = .ok r := by
  have hn := r.members_nodup
  refine Fields.Gives.decode (?_ : Fields.Gives _ (.named (Members.compact r.members)) r)
  refine Fields.Gives.seq (Fields.Gives.seq (Fields.Gives.seq (Fields.Gives.map Request.mk ?url)
    ?method) ?headers) ?body
  case url | method => exact Fields.gives_required hn rfl rfl
  case headers => exact Fields.gives_written hn nofun rfl (decodeTexts_toJson h)
  case body => exact Fields.gives_optional hn rfl fun _ => rfl

end Request

end Http

/-- Every request that a tool makes has its headers in order, with credentials or without. -/
theorem Definition.Rest.ordered_request {b : Rest} (h : b.headers.Ordered) (token format : String)
    (args : Arguments) :
    (b.request none args).headers.Ordered ∧
      (b.request (some (.bearer token format)) args).headers.Ordered :=
  ⟨h, h.insert _ _⟩

end Parley
