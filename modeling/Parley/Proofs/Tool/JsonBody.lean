/-
Bodies that are JSON. What is put into a body is put in as it is, so a body whose template is JSON
text stays such a text with what stands for itself inside of a string, and with whatever else is the
inside of one, escapes included (`body_keeps_structure`). A quote in what is put in closes the string
of the template, and what follows is part of the body like all else (`quotes_break_structure`).
-/
import Parley.Proofs.Template.Document
import Parley.Proofs.Tool.Partition

namespace Parley

open Json (Literal inQuotes parse?)

namespace Template

/-- A template that is JSON text, and whose placeholders stand inside of strings: none of them goes
on behind the quote that closes the string in which it starts. That is what `inside` says of their
keys (`inside_iff`). -/
structure IsJson (template : String) : Prop where
  parses : ∃ v, parse? template = some v
  inside : ∀ key, Mentions template key → ∃ d, parse? (inQuotes key) = some (.str d)

/-- Arguments that a template can be filled with. Each of its placeholders has a string that, in
quotes and with nothing escaped, is the text of a string. -/
def Takes (template : String) (args : Arguments) (means : String → String) : Prop :=
  ∀ key, Mentions template key →
    ∃ s, args.get? key = some (.str s) ∧ parse? (inQuotes s) = some (.str (means key))

theorem mentions_iff_mem {template : String} {ks : List String}
    (h : keys (split template.toList) = ks) {key : String} : Mentions template key ↔ key ∈ ks := by
  rw [mentions_iff, ← mem_keys_iff, h]

theorem fits_of_takes {template : String} {args : Arguments} {means : String → String}
    (hj : IsJson template) (ht : Takes template args means) :
    Fits args means template.toList := by
  intro key hkey
  have hmentions : Mentions template key := mentions_iff.2 hkey
  obtain ⟨d, hd⟩ := hj.inside key hmentions
  obtain ⟨s, hs, hmeans⟩ := ht key hmentions
  exact ⟨⟨d.toList, Json.parse?_inQuotes_iff.1 hd⟩, s, hs, Json.parse?_inQuotes_iff.1 hmeans⟩

/-- One value is the other with the placeholders in its strings replaced: there is one tree of
strings as they are written that both are read from. -/
def Replaced (template : String) (means : String → String) (v w : Json) : Prop :=
  ∃ tree, Json.parseAs? (Json.Parser.value raw) template = some tree ∧
    Reread Literal tree v ∧ Reread (Stands means) tree w

theorem Replaced.unique {template : String} {means : String → String} {u v w x : Json}
    (h : Replaced template means u v) (h' : Replaced template means w x) : w = u ∧ x = v := by
  obtain ⟨tree, htree, hu, hv⟩ := h
  obtain ⟨_, htree', hw, hx⟩ := h'
  obtain rfl := Option.some.inj (htree.symm.trans htree')
  exact ⟨Reread.unique Json.rightUnique_literal tree hw hu,
    Reread.unique (rightUnique_stands means) tree hx hv⟩

end Template

namespace Definition.Rest

open Http Template

/-- A template that is JSON text makes a body that is JSON text: the value of the template, with
each placeholder in a string replaced by the text that its argument is in quotes. There is one such
value. The text is the argument itself just when that has neither quotes nor backslashes nor control
characters. -/
theorem body_keeps_structure (b : Rest) (auth : Option Authenticator) (args : Arguments)
    (means : String → String) (template : String) (hauth : ∀ a ∈ auth, ∀ r, (a r).body = r.body)
    (hb : b.body = some template) (hj : IsJson template) (ht : Takes template args means) :
    (∃ text v w, (b.request auth args).body = some text ∧
      parse? template = some v.collapse ∧ parse? text = some w.collapse ∧
      Replaced template means v w ∧
      ∀ v' w', Replaced template means v' w' → v' = v ∧ w' = w) ∧
    ∀ s, parse? (inQuotes s) = some (.str s) ↔
      ∀ c ∈ s.toList, c ≠ '"' ∧ c ≠ '\\' ∧ ¬ c.toNat < 32 := by
  refine ⟨?_, fun s => Json.parse?_inQuotes_iff.trans Json.literal_self_iff⟩
  obtain ⟨v, hv⟩ := hj.parses
  obtain ⟨tree, u, w, htree, hu, rfl, hw, htext⟩ := parse?_render (fits_of_takes hj ht) hv
  have hne : (render template args).text ≠ "" := by
    intro hempty
    rw [hempty] at htext
    cases htext
  have hbody : (b.plainRequest args).body = some (render template args).text := by
    rw [plainRequest_body, hb, Option.map_some, Option.filter_some]
    simp [hne]
  -- the authenticator keeps the body of the plain request
  have hauth' : (b.request auth args).body = (b.plainRequest args).body := by
    cases auth with
    | none => rfl
    | some a => exact hauth a rfl _
  have hreplaced : Replaced template means u w := ⟨tree, htree, hu, hw⟩
  exact ⟨_, u, w, hauth'.trans hbody, hv, htext, hreplaced, fun _ _ => hreplaced.unique⟩

/-- A request that makes a note. -/
def noting : Rest where
  baseUrl := "https://h/notes"
  method := .post
  headers := []
  body := some "\x7b\"note\": [\"at ${ time }: ${text}\"]\x7d"
  authentication := none
  outputPath := none

/-- Quotes that are escaped stay in the string. -/
theorem escaped_quotes_keep_structure :
    ∃ text v w, (noting.request (some (.bearer "s" "Bearer"))
        [("time", .str "9:30"), ("text", .str "ask \\\"why\\\"")]).body = some text ∧
      parse? text = some w.collapse ∧
      w.collapse = .obj [("note", .arr [.str "at 9:30: ask \"why\""])] ∧
      Replaced "\x7b\"note\": [\"at ${ time }: ${text}\"]\x7d"
        (fun key => if key = "time" then "9:30" else "ask \"why\"") v w := by
  have hkeys {key : String} :
      Mentions "\x7b\"note\": [\"at ${ time }: ${text}\"]\x7d" key ↔ key ∈ ["time", "text"] :=
    mentions_iff_mem (by decide +kernel)
  simp only [List.mem_cons, List.not_mem_nil, or_false] at hkeys
  have hjson : IsJson "\x7b\"note\": [\"at ${ time }: ${text}\"]\x7d" := by
    refine ⟨⟨.obj [("note", .arr [.str "at ${ time }: ${text}"])], by decide +kernel⟩,
      fun key hkey => ?_⟩
    rcases hkeys.1 hkey with rfl | rfl
    · exact ⟨"time", by decide +kernel⟩
    · exact ⟨"text", by decide +kernel⟩
  have htakes : Takes "\x7b\"note\": [\"at ${ time }: ${text}\"]\x7d"
      [("time", .str "9:30"), ("text", .str "ask \\\"why\\\"")]
      (fun key => if key = "time" then "9:30" else "ask \"why\"") := by
    intro key hkey
    rcases hkeys.1 hkey with rfl | rfl
    · exact ⟨_, rfl, by decide +kernel⟩
    · exact ⟨_, rfl, by decide +kernel⟩
  have hauth : ∀ a ∈ some (Authenticator.bearer "s" "Bearer"), ∀ r, (a r).body = r.body := by
    rintro _ ⟨⟩ r
    rfl
  obtain ⟨⟨text, v, w, hbody, -, hw, hreplaced, -⟩, -⟩ :=
    body_keeps_structure noting _ _ _ _ hauth rfl hjson htakes
  have htext : (noting.request (some (.bearer "s" "Bearer"))
      [("time", .str "9:30"), ("text", .str "ask \\\"why\\\"")]).body =
        some "\x7b\"note\": [\"at 9:30: ask \\\"why\\\"\"]\x7d" := by decide +kernel
  have hread : parse? "\x7b\"note\": [\"at 9:30: ask \\\"why\\\"\"]\x7d" =
      some (.obj [("note", .arr [.str "at 9:30: ask \"why\""])]) := by decide +kernel
  obtain rfl := Option.some.inj (hbody.symm.trans htext)
  exact ⟨_, v, w, hbody, hw, Option.some.inj (hw.symm.trans hread), hreplaced⟩

/-- A request that names its subject. -/
def titling : Rest where
  baseUrl := "https://h/notes"
  method := .post
  headers := []
  body := some "\x7b\"title\":\"${title}\"\x7d"
  authentication := none
  outputPath := none

/-- A quote that is not escaped closes the string of the template: with it the body is no JSON any
more, and with JSON behind it the object has one more member. -/
theorem quotes_break_structure :
    IsJson "\x7b\"title\":\"${title}\"\x7d" ∧
    (∀ key, Mentions "\x7b\"title\":\"${title}\"\x7d" key → key = "title") ∧
    (titling.request none [("title", .str "\"")]).body.bind parse? = none ∧
    ∃ text, (titling.request none [("title", .str "x\",\"admin\":\"yes")]).body = some text ∧
      parse? text = some (.obj [("title", .str "x"), ("admin", .str "yes")]) ∧
      ∀ v w, Replaced "\x7b\"title\":\"${title}\"\x7d" (fun _ => "x\",\"admin\":\"yes") v w →
        parse? text ≠ some w.collapse := by
  have hkeys {key : String} :
      Mentions "\x7b\"title\":\"${title}\"\x7d" key ↔ key ∈ ["title"] :=
    mentions_iff_mem (by decide +kernel)
  simp only [List.mem_singleton] at hkeys
  have hread : parse? "\x7b\"title\":\"x\",\"admin\":\"yes\"\x7d" =
      some (.obj [("title", .str "x"), ("admin", .str "yes")]) := by decide +kernel
  refine ⟨⟨⟨.obj [("title", .str "${title}")], by decide +kernel⟩, fun key hkey => ?_⟩,
    fun _ => hkeys.1, by decide +kernel, _, by decide +kernel, hread, ?_⟩
  · rw [hkeys.1 hkey]
    exact ⟨"title", by decide +kernel⟩
  · rintro v w ⟨tree, htree, -, hw⟩ hparse
    have htree' : Json.parseAs? (Json.Parser.value raw) "\x7b\"title\":\"${title}\"\x7d" =
        some (.obj [("title", .str "${title}")]) := by decide +kernel
    obtain rfl := Option.some.inj (htree.symm.trans htree')
    -- an object with one member is filled to one with one member
    obtain _ | _ | _ | _ | _ | ⟨hnames, -⟩ := hw
    rename_i ns
    have hone : ns.length = 1 := by simpa using hnames.length_eq.symm
    obtain ⟨n, rfl⟩ := List.length_eq_one_iff.1 hone
    have hmembers := congrArg List.length
      (Json.obj.inj (Option.some.inj (hread.symm.trans hparse)))
    simp [Json.collapseMembers, Json.Members.distinct, Json.Members.insert] at hmembers

end Definition.Rest

end Parley
