/-
The credentials of requests. A bearer sets the header of its name and changes nothing else. Names
of headers are one whatever the case of their letters, but a header is set under the one spelling
that the bearer has for it, and a definition may bring another. So a request has a single header
with credentials, that of the bearer, exactly when its definition spells the name in no other way
(`Definition.Rest.bears_once_iff`).
-/
import Parley.Proofs.Http.Headers
import Parley.Proofs.Http.Wire

namespace Parley

namespace Http

/-! ## Names of headers -/

/-- Whether two names are those of one header: the case of ASCII letters makes no difference. -/
def sameName (a b : String) : Bool :=
  a.toList.map Char.toLower == b.toList.map Char.toLower

theorem sameName_refl (a : String) : sameName a a = true :=
  beq_self_eq_true _

/-- The headers of a request that hold credentials, however their name is spelled. -/
def Request.credentials (r : Request) : Dictionary String :=
  r.headers.filter fun e => sameName e.1 Authenticator.headerName

namespace Authenticator

/-! ## Setting a header -/

section Header

variable {r : Request} {name value : String}

theorem header_resembles (r : Request) (value : String) :
    (header headerName value r).Resembles r :=
  ⟨rfl, rfl, r.headers.filter_insert _ _, rfl⟩

/-- A header that is set is there once under its name. -/
theorem filter_header (h : r.headers.Ordered) :
    (header name value r).headers.filter (·.1 = name) = [(name, value)] :=
  h.filter_insert_self name value

theorem mem_header {e : String × String} (h : e ∈ r.headers) (hne : e.1 ≠ name) :
    e ∈ (header name value r).headers := by
  have hmem : e ∈ r.headers.filter (·.1 ≠ name) := List.mem_filter.2 ⟨h, by simpa using hne⟩
  rw [← r.headers.filter_insert name value] at hmem
  exact (List.mem_filter.1 hmem).1

/-- The credentials that are set are the only ones exactly when the request has none under another
spelling. -/
theorem credentials_header_iff (h : r.headers.Ordered) (e : String × String) :
    (header headerName value r).credentials = [e] ↔
      (∀ f ∈ r.headers, sameName f.1 headerName → f.1 = headerName) ∧ e = (headerName, value) := by
  have hset : (headerName, value) ∈ (header headerName value r).headers := by
    have hmem : (headerName, value) ∈ [(headerName, value)] := List.mem_singleton_self _
    rw [← filter_header h] at hmem
    exact (List.mem_filter.1 hmem).1
  constructor
  · intro hone
    have heq : (headerName, value) = e := by
      rw [← List.mem_singleton, ← hone]
      exact List.mem_filter.2 ⟨hset, sameName_refl headerName⟩
    refine ⟨fun f hf hsame => ?_, heq.symm⟩
    -- a header under another spelling stays, and counts as well
    by_contra hne
    have hf : f ∈ (header headerName value r).credentials :=
      List.mem_filter.2 ⟨mem_header hf hne, hsame⟩
    rw [hone, List.mem_singleton, ← heq] at hf
    exact hne (congrArg Prod.fst hf)
  · rintro ⟨hspelling, rfl⟩
    rw [← filter_header h]
    refine List.filter_congr fun f hf => ?_
    rw [Bool.eq_iff_iff, decide_eq_true_eq]
    constructor
    · intro hsame
      rcases Dictionary.mem_insert hf with hname | hf
      · exact hname
      · exact hspelling f hf hsame
    · intro hname
      rw [hname]
      exact sameName_refl headerName

end Header

end Authenticator

end Http

/-! ## Requests of tools -/

namespace Definition.Rest

open Http Authenticator

/-- A bearer puts its credentials into the one header of its spelling, and the rest of the request
is as it is without them. They are the only credentials exactly when the definition has none under
another spelling of that header. -/
theorem bears_once_iff {b : Rest} (h : b.headers.Ordered) (token format : String)
    (args : Arguments) :
    let r := b.request (some (.bearer token format)) args
    r.Resembles (b.request none args) ∧
      r.headers.filter (·.1 = headerName) = [(headerName, format ++ " " ++ token)] ∧
      ∀ e, r.credentials = [e] ↔
        (∀ f ∈ b.headers, sameName f.1 headerName → f.1 = headerName) ∧
          e = (headerName, format ++ " " ++ token) :=
  ⟨header_resembles _ _, filter_header (r := b.plainRequest args) h,
    credentials_header_iff (r := b.plainRequest args) h⟩

/-- A request for notes with the given headers. -/
def notes (headers : Dictionary String) : Rest :=
  ⟨"https://h/notes", .get, headers, none, none, none⟩

/-- Credentials of the definition under the same spelling give way to those of the bearer. -/
theorem own_spelling_replaced :
    let b := notes [("Authorization", "Basic abc"), ("accept", "text/plain")]
    b.headers.Ordered ∧
      (b.request (some (.bearer "t" "Bearer")) []).credentials = [("Authorization", "Bearer t")] := by
  intro b
  have hord : b.headers.Ordered := by
    unfold Dictionary.Ordered
    decide
  exact ⟨hord, ((bears_once_iff hord "t" "Bearer" []).2.2 _).2 ⟨by decide, rfl⟩⟩

/-- Under another spelling they stay beside them. -/
theorem other_spelling_kept :
    let r := (notes [("authorization", "Basic abc")]).request (some (.bearer "t" "Bearer")) []
    r.credentials = [("Authorization", "Bearer t"), ("authorization", "Basic abc")] ∧
      ¬ ∃ e, r.credentials = [e] := by
  intro r
  have htwo : r.credentials = [("Authorization", "Bearer t"), ("authorization", "Basic abc")] := by
    decide
  refine ⟨htwo, ?_⟩
  rintro ⟨e, hone⟩
  rw [htwo] at hone
  cases hone

end Definition.Rest

end Parley
