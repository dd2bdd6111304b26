/-
Headers of requests, and the one that holds credentials. Setting a header changes that header and
nothing else, and the text of the request shows its value in one place. Where credentials are to be
hidden only the first word of their header is left, which is the scheme of a token unless that is
blank: then it is a word of the token itself (`firstWord_credentials`).
-/
import Parley.Command.Presets
import Parley.Proofs.Dictionary
import Parley.Proofs.Json.Quoted
import Mathlib.Data.List.TakeWhile

namespace Parley

namespace Text

/-! ## The first word of a text -/

/-- The first characters in a row that are not blank. -/
def firstWord (cs : List Char) : List Char :=
  (trimStart cs).takeWhile fun c => !isBlank c

theorem firstWord_append_of_blank {cs : List Char} (h : ∀ c ∈ cs, isBlank c = true)
    (ds : List Char) : firstWord (cs ++ ds) = firstWord ds := by
  rw [firstWord, trimStart, List.dropWhile_append_of_pos h, firstWord, trimStart]

theorem firstWord_append_of_word {cs : List Char} (h : ¬ ∀ c ∈ cs, isBlank c = true) {b : Char}
    (hb : isBlank b = true) (ds : List Char) : firstWord (cs ++ b :: ds) = firstWord cs := by
  have hne : ¬ (cs.dropWhile isBlank).isEmpty := by
    rwa [List.isEmpty_iff, List.dropWhile_eq_nil_iff]
  have hstop : (b :: ds).takeWhile (fun c => !isBlank c) = [] :=
    List.takeWhile_cons_of_neg (by simp [hb])
  unfold firstWord trimStart
  rw [List.dropWhile_append, if_neg hne, List.takeWhile_append, hstop, List.append_nil]
  split
  · rename_i hlen
    exact (List.IsPrefix.eq_of_length (List.takeWhile_prefix _) hlen).symm
  · rfl

end Text

namespace Config.Credentials

/-- The first word of the header that credentials make. -/
def lead (a : Credentials) : List Char :=
  if Text.isBlankText a.format then Text.firstWord a.token.toList
  else Text.firstWord a.format.toList

theorem firstWord_credentials (a : Credentials) :
    Text.firstWord (a.format ++ " " ++ a.token).toList = a.lead := by
  have hsplit : (a.format ++ " " ++ a.token).toList =
      a.format.toList ++ ' ' :: a.token.toList := by
    simp [String.toList_append]
  have hspace : Text.isBlank ' ' = true := by decide
  have hspaces : ∀ c ∈ [' '], Text.isBlank c = true := fun c hc =>
    List.mem_singleton.1 hc ▸ hspace
  rw [hsplit, lead]
  split
  · rename_i h
    rw [Text.isBlankText, List.all_eq_true] at h
    rw [Text.firstWord_append_of_blank h]
    exact Text.firstWord_append_of_blank hspaces a.token.toList
  · rename_i h
    rw [Text.isBlankText, List.all_eq_true] at h
    exact Text.firstWord_append_of_word h hspace _

end Config.Credentials

namespace Http

open Json

/-! ## Setting a header -/

/-- Two requests that differ in the header with the credentials at most. -/
structure Request.Resembles (shown r : Request) : Prop where
  url : shown.url = r.url
  method : shown.method = r.method
  headers : shown.headers.filter (·.1 ≠ Authenticator.headerName) =
    r.headers.filter (·.1 ≠ Authenticator.headerName)
  body : shown.body = r.body

theorem Request.Resembles.refl (r : Request) : r.Resembles r := ⟨rfl, rfl, rfl, rfl⟩

/-- The text of a request shows the value of a header in one place. -/
theorem displays_header (name : String) (r : Request) :
    Displays fun v => (Authenticator.header name v r).toJson.indentedChars 0 := by
  -- the header has one place among the headers, and these have one in the request
  obtain ⟨pre, post, h⟩ := r.headers.exists_insert_eq name
  let entry (e : String × String) : String × Json := (e.1, .str e.2)
  have hheaders : Displays fun v => indentedChars 1
      (.obj (pre.map entry ++ (name, .str v) :: post.map entry)) :=
    displays_indentedObj (displays_str 2) name _ _
  have htext : ∀ v, (Authenticator.header name v r).toJson =
      .obj ([("url", .str r.url), ("method", .str r.method)] ++
        ("headers", .obj (pre.map entry ++ (name, .str v) :: post.map entry)) ::
          (r.body.map fun b => ("body", .str b)).toList) := by
    intro v
    have hins : textsToJson (r.headers.insert name v) =
        .obj (pre.map entry ++ (name, .str v) :: post.map entry) := by
      rw [textsToJson, h, List.map_append, List.map_cons]
    rw [← hins]
    cases hbody : r.body <;>
      simp [Request.toJson, Authenticator.header, Members.compact, hbody]
  simp only [htext]
  exact displays_indentedObj hheaders "headers" _ _

end Http

namespace Command

open Http

/-! ## Hiding credentials -/

/-- What is shown of credentials is the first word of their header. -/
theorem hideCredentials_bearer (a : Config.Credentials) (r : Request) :
    hideCredentials (Authenticator.bearer a.token a.format r) =
      Authenticator.header Authenticator.headerName
        (String.ofList a.lead ++ " " ++ Config.hidden) r := by
  have hget : (Authenticator.bearer a.token a.format r).headers.get? Authenticator.headerName =
      some (a.format ++ " " ++ a.token) :=
    Dictionary.lookup_insert_self r.headers _ _
  unfold hideCredentials
  simp only [hget]
  rw [← a.firstWord_credentials]
  simp only [Authenticator.bearer, Authenticator.header, Dictionary.insert_insert]
  rfl

theorem hideCredentials_resembles (r : Request) : (hideCredentials r).Resembles r := by
  unfold hideCredentials
  split
  · exact .refl r
  · exact ⟨rfl, rfl, r.headers.filter_insert _ _, rfl⟩

end Command

end Parley
