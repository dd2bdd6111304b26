/-
Values in addresses. A value that a placeholder of the address stands for is put in as it is, so a
question mark or a number sign in it moves the place where a reader of the address finds the query.
What such a reader finds is what the rendered address says by itself and, unless a number sign has
ended the query before it begins, the arguments that no placeholder stands for (`read_withQuery`).
So these arguments are found as they were given exactly where the rendered address adds nothing to
them and keeps none of them from its reader.
-/
import Parley.Proofs.Tool.Partition

namespace Parley

namespace Http.Address

/-! ## The query of an address -/

/-- What stands between the first question mark of an address and the number sign that ends it. -/
def query (url : List Char) : List Char :=
  ((url.takeWhile (· ≠ '#')).dropWhile (· ≠ '?')).drop 1

theorem takeWhile_of_open {cs : List Char} (h : '#' ∉ cs) : cs.takeWhile (· ≠ '#') = cs :=
  List.takeWhile_eq_self_iff.2 (Form.all_ne_of_not_mem h)

theorem query_of_not_mem {url : List Char} (h : '?' ∉ url) : query url = [] := by
  have hq : '?' ∉ url.takeWhile (· ≠ '#') := fun hc => h ((List.takeWhile_sublist _).mem hc)
  rw [query, List.dropWhile_eq_nil_iff.2 (Form.all_ne_of_not_mem hq), List.drop_nil]

theorem query_behind_mark {before : List Char} (hq : '?' ∉ before) (hn : '#' ∉ before)
    (after : List Char) : query (before ++ '?' :: after) = after.takeWhile (· ≠ '#') := by
  unfold query
  rw [List.takeWhile_append_of_pos (Form.all_ne_of_not_mem hn),
    List.takeWhile_cons_of_pos (by decide),
    List.dropWhile_append_of_pos (Form.all_ne_of_not_mem hq), List.dropWhile_cons_of_neg (by decide),
    List.drop_one, List.tail_cons]

/-- What is written behind a number sign belongs to no query. -/
theorem query_append_of_ended {url : List Char} (h : '#' ∈ url) (more : List Char) :
    query (url ++ more) = query url := by
  obtain ⟨before, after, rfl, hb⟩ := List.eq_append_cons_of_mem h
  have hne := Form.all_ne_of_not_mem hb
  unfold query
  rw [List.append_assoc, List.cons_append, List.takeWhile_append_of_pos hne,
    List.takeWhile_append_of_pos hne, List.takeWhile_cons_of_neg (by decide),
    List.takeWhile_cons_of_neg (by decide)]

/-- A query that no number sign has ended goes on. -/
theorem query_append_of_open {url more : List Char} (hq : '?' ∈ url) (hu : '#' ∉ url)
    (hm : '#' ∉ more) : query (url ++ more) = query url ++ more := by
  obtain ⟨before, after, rfl, hb⟩ := List.eq_append_cons_of_mem hq
  simp only [List.mem_append, List.mem_cons, not_or] at hu
  have hmore : '#' ∉ after ++ more := fun h => (List.mem_append.1 h).elim hu.2.2 hm
  rw [List.append_assoc, List.cons_append, query_behind_mark hb hu.1, query_behind_mark hb hu.1,
    takeWhile_of_open hmore, takeWhile_of_open hu.2.2]

end Http.Address

namespace Definition.Rest

open Http Template

/-- What a reader finds in an address behind which pairs were written. -/
theorem read_withQuery (url : String) (ps : List (String × String)) :
    Form.read (Address.query (withQuery url ps).toList) =
      Form.read (Address.query url.toList) ++ if '#' ∈ url.toList then [] else ps := by
  by_cases hps : ps = []
  · subst hps
    rw [ite_self, List.append_nil]
    rfl
  unfold withQuery separator
  rw [if_neg (by simpa using hps), String.toList_ofList, List.contains_eq_mem]
  have hend := Query.number_sign_not_mem_encode ps
  by_cases hn : '#' ∈ url.toList
  · rw [if_pos hn, Address.query_append_of_ended hn, List.append_nil]
  rw [if_neg hn]
  by_cases hq : '?' ∈ url.toList
  · rw [if_pos (decide_eq_true hq),
      Address.query_append_of_open hq hn (List.not_mem_cons_of_ne_of_not_mem (by decide) hend),
      Form.read_append, Query.read_encode]
  · -- the question mark in front of the pairs is the first of the address
    rw [if_neg (by simpa using hq), Address.query_behind_mark hq hn,
      Address.takeWhile_of_open hend, Address.query_of_not_mem hq, Query.read_encode,
      Form.read_nil, List.nil_append]

/-- A rendered address shows a character that its template does not have only in a value. -/
theorem not_mem_address {b : Rest} {args : Arguments} {c : Char} (hb : c ∉ b.baseUrl.toList)
    (h : ∀ key v, Mentions b.baseUrl key → args.get? key = some v → c ∉ (display v).toList) :
    c ∉ (b.address args).text.toList := by
  intro hc
  rcases mem_render hc with hc | ⟨key, v, hk, hv, hc⟩
  · exact hb hc
  · exact h key v (mentions_iff.2 hk) hv hc

/-- The arguments that no placeholder stands for are the query of a request exactly where the
address that the placeholders are filled in by itself has no pair in its query, or where it ends
the query and happens to say the same; so they are wherever no value that is put into the address
has a question mark or a number sign in it. -/
theorem query_kept_iff (b : Rest) (auth : Option Authenticator) (args : Arguments)
    (hauth : ∀ a ∈ auth, ∀ r, (a r).url = r.url)
    (hq : '?' ∉ b.baseUrl.toList) (hn : '#' ∉ b.baseUrl.toList) :
    (Form.read (Address.query (b.request auth args).url.toList) = b.query args ↔
      Form.read (Address.query (render b.baseUrl args).text.toList) =
        if '#' ∈ (render b.baseUrl args).text.toList then b.query args else []) ∧
    ((∀ key v, Mentions b.baseUrl key → args.get? key = some v →
        '?' ∉ (display v).toList ∧ '#' ∉ (display v).toList) →
      Form.read (Address.query (b.request auth args).url.toList) = b.query args) := by
  -- the authenticator keeps the address of the plain request
  have hurl : (b.request auth args).url = withQuery (b.address args).text (b.query args) := by
    rw [← plainRequest_url]
    cases auth with
    | none => rfl
    | some a => exact hauth a rfl _
  rw [hurl, read_withQuery]
  constructor
  · change _ ↔ Form.read (Address.query (b.address args).text.toList) =
      if '#' ∈ (b.address args).text.toList then b.query args else []
    split
    · rw [List.append_nil]
    · exact List.append_left_eq_self
  · intro h
    have hmark := not_mem_address hq fun key v hk hv => (h key v hk hv).1
    have hend := not_mem_address hn fun key v hk hv => (h key v hk hv).2
    rw [if_neg hend, Address.query_of_not_mem hmark, Form.read_nil, List.nil_append]

/-- Items by their number. -/
def items : Rest where
  baseUrl := "https://h/items/${id}"
  method := .get
  headers := []
  body := none
  authentication := none
  outputPath := none

/-- Marks in an argument that belongs to the query do no harm. -/
theorem marks_in_query_kept :
    items.query [("id", .str "7/a"), ("text", .str "?b=#&")] = [("text", "?b=#&")] ∧
    Form.read (Address.query (items.request (some (Authenticator.bearer "s" "Bearer"))
        [("id", .str "7/a"), ("text", .str "?b=#&")]).url.toList) =
      items.query [("id", .str "7/a"), ("text", .str "?b=#&")] := by
  refine ⟨by decide +kernel, (items.query_kept_iff _ _ ?_ (by decide) (by decide)).1.2 ?_⟩
  · rintro _ ⟨⟩ r
    rfl
  · decide +kernel

/-- A value with a question mark and a number sign in it puts a pair of its own into the query and
hides the argument that belongs there. -/
theorem marks_replace_query :
    '?' ∉ items.baseUrl.toList ∧ '#' ∉ items.baseUrl.toList ∧
    items.query [("id", .str "7?admin=1#"), ("limit", .str "5")] = [("limit", "5")] ∧
    Form.read (Address.query (items.request none
      [("id", .str "7?admin=1#"), ("limit", .str "5")]).url.toList) = [("admin", "1")] := by
  decide +kernel

end Definition.Rest

end Parley
