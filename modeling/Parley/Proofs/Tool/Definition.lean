/-
Definitions of tools, read and written again. Whatever a definition is read from, it is written
under the proper names of all its fields and read back as it was, and the model sees the parameters
that it was given with (`Definition.definitions_survive`). Which of its names a field went by makes
no difference, in the definition or in the parts of it.
-/
import Parley.Proofs.Http.Wire
import Parley.Proofs.Tool.Description

namespace Parley.Definition

open Json Fields

/-! ## What a tool does -/

theorem Method.decode_name (m : Method) : Method.decode (.str m.name) = .ok m := by
  cases m <;> rfl

/-- Under the tag of its definition the name may hold an empty object, too. -/
example : Method.decode (.obj [("GET", .obj [])]) = .ok .get := rfl

theorem Scheme.decode_name (s : Scheme) : Scheme.decode.nullable (.str s.name) = .ok (some s) := by
  cases s
  rfl

/-- The second spellings of the fields that say what a tool does. -/
def aliases : List (String × String) := [("base_url", "baseURL"), ("output_path", "outputPath")]

namespace Capability

theorem decode_properNames (v : Json) : decode (Json.properNames aliases v) = decode v := by
  cases v with
  | obj ms =>
    refine Fields.Alike.decode (Alike.map _ ?_)
    exact alike_field (fun m => contains_properName (by decide) m.1) fun m _ => rfl
  | null | bool | num | str | arr => rfl

def members (b : Capability) : List (String × Option Json) :=
  [("outputPath", b.outputPath.map .str)]

theorem decode_toJson (b : Capability) : decode b.toJson = .ok b := by
  have hn : (b.members.map Prod.fst).Nodup := List.nodup_singleton _
  refine Gives.decode (?_ : Gives _ (.named (Members.compact b.members)) b)
  refine Gives.map Capability.mk (gives_optional_alias hn ?_ rfl fun _ _ => rfl)
  simp [members]

end Capability

namespace Rest

theorem decode_properNames (v : Json) : decode (Json.properNames aliases v) = decode v := by
  cases v with
  | obj ms =>
    refine Fields.Alike.decode (Alike.seq (Alike.seq (Alike.seq (Alike.seq (Alike.seq
      (Alike.map _ ?_) ?_) ?_) ?_) ?_) ?_)
    all_goals exact alike_field (fun m => contains_properName (by decide) m.1) fun m _ => rfl
  | null | bool | num | str | arr => rfl

def members (b : Rest) : List (String × Option Json) :=
  [("baseURL", some (.str b.baseUrl)), ("method", some (.str b.method.name)),
    ("headers", some (Http.textsToJson b.headers)), ("body", b.body.map .str),
    ("authentication", b.authentication.map fun s => .str s.name),
    ("outputPath", b.outputPath.map .str)]

theorem nodup_members (b : Rest) : (b.members.map Prod.fst).Nodup := by
  show ["baseURL", "method", "headers", "body", "authentication", "outputPath"].Nodup
  decide

theorem decode_toJson {b : Rest} (h : b.headers.Ordered) : decode b.toJson = .ok b := by
  have hn := b.nodup_members
  refine Gives.decode (?_ : Gives _ (.named (Members.compact b.members)) b)
  refine Gives.seq (Gives.seq (Gives.seq (Gives.seq (Gives.seq (Gives.map Rest.mk ?baseUrl)
    ?method) ?headers) ?body) ?authentication) ?outputPath
  case baseUrl =>
    refine gives_written hn ?_ rfl rfl
    simp [members]
  case method => exact gives_written hn nofun rfl (Method.decode_name _)
  case headers => exact gives_written hn nofun rfl (Http.decodeTexts_toJson h)
  case body => exact gives_optional hn rfl fun _ => rfl
  case authentication => exact gives_optional hn rfl Scheme.decode_name
  case outputPath =>
    refine gives_optional_alias hn ?_ rfl fun _ _ => rfl
    simp [members]

end Rest

/-! ## Definitions -/

variable {d : Definition} {v : Json}

/-- A part of a definition with the proper names of its fields. -/
def properPart (name : String) (v : Json) : Json :=
  if name = "description" then Json.properNames Tool.Description.aliases v
  else if name = "behavior" then Json.properNames aliases v
  else v

/-- A definition with the proper names of the fields of its parts. -/
def properNames : Json → Json
  | .obj ms => .obj (ms.map fun m => (m.1, properPart m.1 m.2))
  | v => v

/-- The names of the fields that say what a tool does. -/
def fieldNames : Definition → List String
  | .universal _ _ => ["outputPath"]
  | .restApi _ _ => ["baseURL", "method", "headers", "body", "authentication", "outputPath"]

/-- A definition in JSON that names all its fields properly, those of its parts included. -/
structure Proper (d : Definition) (v : Json) : Prop where
  fields : HasNames ["type", "description", "behavior"] v
  description : ∃ u, v.get? "description" = some u ∧ Tool.Description.Proper u
  behavior : ∃ u, v.get? "behavior" = some u ∧ HasNames d.fieldNames u

theorem proper_toJson (d : Definition) : Proper d d.toJson := by
  cases d with
  | universal desc b =>
    exact ⟨⟨_, rfl, .refl _⟩, ⟨_, rfl, desc.proper_toJson⟩, ⟨_, rfl, hasNames_compact b.members⟩⟩
  | restApi desc b =>
    exact ⟨⟨_, rfl, .refl _⟩, ⟨_, rfl, desc.proper_toJson⟩, ⟨_, rfl, hasNames_compact b.members⟩⟩

/-- It does not matter which of its names a field of a part goes by. -/
theorem decode_proper (v : Json) : decode (properNames v) = decode v := by
  cases v with
  | obj ms =>
    have hdescription (ns : Members) :
        (required "description" (Tool.Description.decodeAt .underTag)).Alike
          (.named (ns.map fun m => (m.1, properPart m.1 m.2))) (.named ns) := by
      refine alike_field (fun m => rfl) fun m hm => ?_
      have hm : m.1 = "description" := by simpa using hm
      simpa [properPart, hm] using Tool.Description.decode_properNames .underTag m.2
    have hbehavior {α : Type} {read : Decode α} {inObject inList : Option α}
        (hread : ∀ v, read (Json.properNames aliases v) = read v) (ns : Members) :
        (field ["behavior"] read inObject inList).Alike
          (.named (ns.map fun m => (m.1, properPart m.1 m.2))) (.named ns) := by
      refine alike_field (fun m => rfl) fun m hm => ?_
      have hm : m.1 = "behavior" := by simpa using hm
      simpa [properPart, hm] using hread m.2
    refine Decode.tagged_map (f := fun m => (m.1, properPart m.1 m.2)) (fun m => rfl)
      (fun v => rfl) (fun name read hform ns => ?_) ms
    unfold form at hform
    split at hform
    · cases hform
      exact Fields.Alike.decode
        (((hdescription ns).map _).seq (hbehavior Capability.decode_properNames ns))
    split at hform
    · cases hform
      exact Fields.Alike.decode
        (((hdescription ns).map _).seq (hbehavior Rest.decode_properNames ns))
    · cases hform
  | null | bool | num | str | arr => rfl

theorem description_of_decode (h : decode v = .ok d) :
    ∃ u, v.part ["description"] 1 = some u ∧
      Tool.Description.decodeAt .underTag u = .ok d.description := by
  obtain ⟨name, read, rest, hf, hd, hpart⟩ := Decode.ok_of_tagged h
  rw [← hpart _ _ (by decide)]
  unfold form at hf
  split at hf
  · cases hf
    obtain ⟨u, _, _, hu, hdesc, rfl⟩ := first_of_decode hd
    exact ⟨u, hu, hdesc⟩
  split at hf
  · cases hf
    obtain ⟨u, _, _, hu, hdesc, rfl⟩ := first_of_decode hd
    exact ⟨u, hu, hdesc⟩
  · cases hf

def members (d : Definition) : List (String × Option Json) :=
  [("description", some d.description.toJson),
    ("behavior", some (match d with
      | .universal _ b => b.toJson
      | .restApi _ b => b.toJson))]

/-- A definition that was read is read back as it was. -/
theorem decode_toJson (hd : d.description.Sound)
    (ho : ∀ desc b, d = .restApi desc b → b.headers.Ordered) : decode d.toJson = .ok d := by
  have hn : (d.members.map Prod.fst).Nodup := by
    show ["description", "behavior"].Nodup
    decide
  have htag : "type" ∉ (Members.compact d.members).map Prod.fst := by
    intro h
    have hm : "type" ∈ ["description", "behavior"] := (Members.names_compact_sublist _).mem h
    simp at hm
  have hdescription : (required "description" (Tool.Description.decodeAt .underTag)).Gives
      (.named (Members.compact d.members)) d.description :=
    gives_required hn rfl (Tool.Description.decode_toJson .underTag hd)
  cases d with
  | universal desc b =>
    have hform : form universalType = some _ := rfl
    refine (Decode.tagged_cons hform htag).trans (Gives.decode ?_)
    exact (hdescription.map _).seq (gives_written hn nofun rfl b.decode_toJson)
  | restApi desc b =>
    have hform : form restApiType = some _ := rfl
    refine (Decode.tagged_cons hform htag).trans (Gives.decode ?_)
    exact (hdescription.map _).seq (gives_written hn nofun rfl (Rest.decode_toJson (ho desc b rfl)))

/-! ## What survives -/

/-- A definition on its way from a value to the model and back to a value. -/
structure Survives (v : Json) (d : Definition) : Prop where
  proper : Proper d d.toJson
  /-- So nothing changes when it is written once more. -/
  kept : decode d.toJson = .ok d
  shown : ∃ u, v.part ["description"] 1 = some u ∧
    Tool.Description.Shows u d.description.functionSpec

/-- Descriptions and definitions survive to be read and written, and it does not matter which of
their names their fields went by. -/
theorem definitions_survive :
    ((∀ v d, Tool.Description.decode v = .ok d → d.Survives v) ∧
      ∀ v, Tool.Description.decode (Json.properNames Tool.Description.aliases v) =
        Tool.Description.decode v) ∧
    ((∀ v d, decode v = .ok d → Survives v d) ∧ ∀ v, decode (properNames v) = decode v) := by
  refine ⟨⟨fun v d h => ?_, Tool.Description.decode_properNames .alone⟩,
    fun v d h => ?_, decode_proper⟩
  · exact Tool.Description.survives_of_decode h
  · obtain ⟨u, hu, hdescription⟩ := description_of_decode h
    have hsound := Tool.Description.sound_of_decode hdescription
    have hordered : ∀ desc b, d = .restApi desc b → b.headers.Ordered := by
      rintro desc b rfl
      exact ordered_of_decode h
    exact ⟨d.proper_toJson, decode_toJson hsound hordered, u, hu,
      Tool.Description.shows_of_decode hdescription⟩

/-- A definition with second spellings, in the order of an author. -/
def filmSearch : Json :=
  .obj
    [("behavior", .obj [("output_path", .str "films"), ("base_url", .str "https://h"),
        ("method", .str "GET")]),
      ("description", .obj
        [("return_type", .str "list"), ("name", .str "find"),
          ("parameters", .obj
            [("required", .arr [.str "title"]),
              ("properties", .obj
                [("title", .obj [("enum", .arr [.str "Ran"]), ("type", .null),
                  ("description", .str "what to find")])])])]),
      ("type", .str "restapi")]

/-- It is read, and written again in the order and the spelling of the library. -/
theorem filmSearch_survives :
    ∃ d, decode filmSearch = .ok d ∧ Survives filmSearch d ∧ d.toJson = .obj
      [("type", .str "restapi"),
        ("description", .obj
          [("name", .str "find"), ("description", .str ""),
            ("parameters", .obj
              [("type", .str "object"),
                ("properties", .obj
                  [("title", .obj [("description", .str "what to find"),
                    ("enum", .arr [.str "Ran"])])]),
                ("required", .arr [.str "title"])]),
            ("return", .str "list")]),
        ("behavior", .obj [("baseURL", .str "https://h"), ("method", .str "GET"),
          ("headers", .obj []), ("outputPath", .str "films")])] := by
  have h : decode filmSearch = .ok (.restApi
      ⟨"find", "", ⟨[("title", ⟨none, some "what to find", [("enum", .arr [.str "Ran"])]⟩)],
        ["title"]⟩, some (.str "list")⟩
      ⟨"https://h", .get, [], none, none, some "films"⟩) := by
    rfl
  exact ⟨_, h, definitions_survive.2.1 _ _ h, rfl⟩

end Parley.Definition
