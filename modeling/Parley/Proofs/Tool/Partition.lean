/-
Where the arguments of a request go. Those that a placeholder names fill the templates and nothing
else; all others make up the query and nothing else, and whatever reads the query finds them there,
one by one and in order, with the texts that they are shown as. Which arguments are named is a
matter of the templates alone (`Rest.Names`), so a body that comes out empty and is not sent still
takes the arguments that it names.
-/
import Parley.Proofs.Http.Form
import Parley.Proofs.Template.Grammar
import Parley.Tool.Rest

namespace Parley

namespace Template

/-- Some placeholder of a template has the key. -/
def Mentions (template key : String) : Prop :=
  ∃ ps, Splits template.toList ps ∧ .placeholder key ∈ ps

theorem mentions_iff {template key : String} :
    Mentions template key ↔ .placeholder key ∈ split template.toList := by
  unfold Mentions
  simp only [splits_iff, exists_eq_left]

instance (template key : String) : Decidable (Mentions template key) :=
  decidable_of_iff _ mentions_iff.symm

theorem mem_render_keys {template key : String} {context : Json.Members} :
    key ∈ (render template context).keys ↔ Mentions template key ∧ ∃ v, context.get? key = some v := by
  rw [(render_fills template context).keys, mentions_iff]

end Template

namespace Definition.Rest

open Http Template

/-- A placeholder of the address or of the body stands for the argument. -/
def Names (b : Rest) (key : String) : Prop :=
  Mentions b.baseUrl key ∨ ∃ template ∈ b.body, Mentions template key

instance (b : Rest) (key : String) : Decidable (b.Names key) :=
  inferInstanceAs (Decidable (_ ∨ _))

/-- The arguments that some placeholder stands for. -/
def named (b : Rest) (args : Arguments) : Arguments := args.filter fun a => b.Names a.1

/-- The arguments that no placeholder stands for, each with its text. -/
def query (b : Rest) (args : Arguments) : List (String × String) :=
  (args.filter fun a => ¬ b.Names a.1).map fun a => (a.1, display a.2)

section Parts

variable (b : Rest) (args : Arguments)

theorem mem_content_keys {key : String} :
    key ∈ (b.content args).keys ↔
      (∃ template ∈ b.body, Mentions template key) ∧ ∃ v, args.get? key = some v := by
  unfold content
  cases b.body with
  | none => simp
  | some template =>
    dsimp only
    rw [mem_render_keys]
    simp

/-- An argument is used up where a placeholder names it. -/
theorem mem_used_keys {key : String} {v : Json} (h : args.get? key = some v) :
    key ∈ (b.address args).keys ++ (b.content args).keys ↔ b.Names key := by
  rw [List.mem_append, mem_content_keys, address, mem_render_keys]
  simp only [h, Option.some.injEq, exists_eq', and_true]
  exact Iff.rfl

theorem exists_get?_of_mem {a : String × Json} (h : a ∈ args) : ∃ v, args.get? a.1 = some v := by
  unfold Json.Members.get?
  induction args with
  | nil => cases h
  | cons m ms ih =>
    rw [List.lookup_cons]
    split
    · exact ⟨_, rfl⟩
    · rename_i hne
      rcases List.mem_cons.1 h with rfl | h
      · simp at hne
      · exact ih h

theorem leftover_eq : b.leftover args = args.filter fun a => ¬ b.Names a.1 := by
  refine List.filter_congr fun a ha => ?_
  obtain ⟨v, hv⟩ := exists_get?_of_mem args ha
  rw [Bool.eq_iff_iff]
  simp only [Bool.not_eq_true', List.contains_eq_mem, decide_eq_false_iff_not, decide_eq_true_iff,
    b.mem_used_keys args hv]

/-- The query of a request as it is written. -/
theorem plainRequest_url :
    (b.plainRequest args).url = withQuery (b.address args).text (b.query args) := by
  rw [plainRequest, leftover_eq, query]

theorem query_eq_nil_iff : b.query args = [] ↔ ∀ a ∈ args, b.Names a.1 := by
  simp [query]

/-- An argument is either named or in the query, and not both. -/
theorem names_iff_not_mem_query {a : String × Json} (ha : a ∈ args) :
    b.Names a.1 ↔ a.1 ∉ (b.query args).map Prod.fst := by
  constructor
  · intro h hm
    obtain ⟨_, hp, he⟩ := List.mem_map.1 hm
    obtain ⟨c, hc, rfl⟩ := List.mem_map.1 hp
    have hn := (List.mem_filter.1 hc).2
    rw [decide_eq_true_iff] at hn
    exact hn ((show c.1 = a.1 from he) ▸ h)
  · intro h
    by_contra hn
    refine h (List.mem_map.2 ⟨_, List.mem_map.2 ⟨a, List.mem_filter.2 ⟨ha, ?_⟩, rfl⟩, rfl⟩)
    exact decide_eq_true hn

theorem lookup_named {key : String} (h : b.Names key) :
    (b.named args).get? key = args.get? key := by
  unfold named Json.Members.get?
  induction args with
  | nil => rfl
  | cons m ms ih =>
    rw [List.lookup_cons, List.filter_cons]
    by_cases hm : key = m.1
    · subst hm
      rw [if_pos (decide_eq_true h), List.lookup_cons, beq_self_eq_true]
    · have hne : (key == m.1) = false := by simpa using hm
      split
      · rw [List.lookup_cons, hne, ih]
      · rw [ih, hne]

/-- A template of which all placeholders are named is filled from the named arguments. -/
theorem render_named {template : String} (h : ∀ key, Mentions template key → b.Names key) :
    render template (b.named args) = render template args :=
  render_congr fun key hk => b.lookup_named args (h key (mentions_iff.2 hk))

/-- A body that comes out empty is not sent. -/
theorem plainRequest_body :
    (b.plainRequest args).body =
      (b.body.map fun template => (render template args).text).filter (· ≠ "") := by
  unfold plainRequest content
  cases b.body with
  | none => rfl
  | some template =>
    rw [Option.map_some, Option.filter_some]
    by_cases h : (render template args).text = ""
    · simp [h]
    · simp [h, String.isEmpty_iff]

end Parts

/-- A request without credentials parts its arguments. The address is the one that the template
makes of the named arguments, and behind it, unless every argument is named, stands a text that is
read as the list of the others; the body is made of the named arguments too. So an argument that is
named by neither template is found in the query, and only there. -/
theorem request_partitions (b : Rest) (args : Arguments) :
    ∃ text, Form.read text = b.query args ∧
      (∀ a ∈ args, b.Names a.1 ↔ a.1 ∉ (Form.read text).map Prod.fst) ∧
      (b.request none args).url.toList =
        (render b.baseUrl args).text.toList ++
          (if ∀ a ∈ args, b.Names a.1 then []
          else (if '?' ∈ (render b.baseUrl args).text.toList then '&' else '?') :: text) ∧
      render b.baseUrl (b.named args) = render b.baseUrl args ∧
      (b.request none args).body =
        (b.body.map fun template => (render template (b.named args)).text).filter (· ≠ "") := by
  have hread := Query.read_encode (b.query args)
  refine ⟨Query.encode (b.query args), hread,
    fun a ha => by rw [hread, b.names_iff_not_mem_query args ha], ?_,
    b.render_named args fun _ h => .inl h, ?_⟩
  -- nothing is put behind the address when all arguments are named
  · rw [request, plainRequest_url, withQuery]
    by_cases hall : ∀ a ∈ args, b.Names a.1
    · rw [if_pos hall, (b.query_eq_nil_iff args).2 hall]
      exact (List.append_nil _).symm
    · have hne : ¬ (b.query args).isEmpty := by
        rwa [List.isEmpty_iff, query_eq_nil_iff]
      rw [if_neg hall, if_neg hne, String.toList_ofList, separator, List.contains_eq_mem]
      simp only [decide_eq_true_eq]
      rfl
  · rw [request, plainRequest_body]
    congr 1
    refine Option.map_congr fun template ht => ?_
    rw [b.render_named args fun _ h => .inr ⟨template, ht, h⟩]

/-- A text and a truth value fill the address and the body; another text and a number are left for
the query, which stands behind the one that the address has. -/
theorem review_partitioned :
    let b : Rest := ⟨"https://films/${id}?lang=en", .post, [], some "seen: ${ seen }", none, none⟩
    let args := [("id", .str "heat"), ("tag", .str "a&b c"), ("seen", .bool true),
      ("limit", .num (.int 5))]
    (b.request none args).url = "https://films/heat?lang=en&tag=a%26b+c&limit=5" ∧
      (b.request none args).body = some "seen: true" ∧
      ∃ text, Form.read text = [("tag", "a&b c"), ("limit", "5")] ∧
        (b.request none args).url.toList = "https://films/heat?lang=en".toList ++ '&' :: text ∧
        ∀ a ∈ args, b.Names a.1 ↔ a.1 ∉ ["tag", "limit"] := by
  intro b args
  obtain ⟨text, hread, hnames, hurl, -, -⟩ := b.request_partitions args
  have hquery : b.query args = [("tag", "a&b c"), ("limit", "5")] := by decide +kernel
  have haddress : (render b.baseUrl args).text = "https://films/heat?lang=en" := by decide +kernel
  rw [hquery] at hread
  refine ⟨by decide +kernel, by decide +kernel, text, hread, ?_, ?_⟩
  · rw [hurl, haddress, if_neg (by decide +kernel), if_pos (by decide +kernel)]
  · rw [hread] at hnames
    exact hnames

end Definition.Rest

end Parley
