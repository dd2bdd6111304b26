/-
The schema that a server gives for the parameters of a tool, and what the model gets to see of it.
The schema is read into a record of three fields and written again from there, so of its keywords
only `type`, `properties` and `required` get through; what the others hold is lost, the definitions
that a reference names among them (`schema_kept_iff`). One level below nothing is dropped but `null`
for a type or a description: the schema of a property keeps all its other members.

Values are compared up to the order of members (`Json.Equal`). That order, and nothing else, changes
in the schema of a property. A lost member shows in the number of members (`Json.breadth`).
-/
import Parley.Proofs.Agent.Equipment
import Parley.Proofs.Tool.Description

namespace Parley

/-! ## Equal values -/

namespace Json

mutual

/-- Two values are equal, the order of members aside. -/
inductive Equal : Json → Json → Prop where
  | refl (v : Json) : Equal v v
  | arr {vs ws : List Json} (h : EqualItems vs ws) : Equal (.arr vs) (.arr ws)
  | obj {ms ns ns' : Members} (h : EqualMembers ms ns') (hp : ns'.Perm ns) :
    Equal (.obj ms) (.obj ns)

inductive EqualItems : List Json → List Json → Prop where
  | nil : EqualItems [] []
  | cons {v w : Json} {vs ws : List Json} (h : Equal v w) (hs : EqualItems vs ws) :
    EqualItems (v :: vs) (w :: ws)

inductive EqualMembers : Members → Members → Prop where
  | nil : EqualMembers [] []
  | cons {k : String} {v w : Json} {ms ns : Members} (h : Equal v w) (hs : EqualMembers ms ns) :
    EqualMembers ((k, v) :: ms) ((k, w) :: ns)

end

/-- An object has a member, up to the order of the members of its value. -/
def Has (v : Json) (m : String × Json) : Prop := ∃ w, v.get? m.1 = some w ∧ Equal m.2 w

/-- The number of members of a value. -/
def width : Json → Nat
  | .obj ms => ms.length
  | _ => 0

/-- The number of members of the values of members. -/
def breadth : Members → Nat
  | [] => 0
  | m :: ms => m.2.width + breadth ms

section Equal

variable {v w : Json} {ms ns : Members} {s : String}

theorem equalMembers_refl (ms : Members) : EqualMembers ms ms := by
  induction ms with
  | nil => exact .nil
  | cons m ms ih => exact .cons (.refl m.2) ih

theorem equal_of_perm (h : ms.Perm ns) : Equal (.obj ms) (.obj ns) :=
  .obj (equalMembers_refl ms) h

theorem Equal.eq_str (h : Equal v (.str s)) : v = .str s := by
  cases h
  rfl

theorem EqualMembers.length_eq (h : EqualMembers ms ns) : ms.length = ns.length := by
  induction ms generalizing ns with
  | nil =>
    cases h
    rfl
  | cons m ms ih =>
    cases h with
    | cons _ hs => exact congrArg (· + 1) (ih hs)

theorem Equal.width_eq (h : Equal v w) : v.width = w.width := by
  cases h with
  | refl | arr => rfl
  | obj h hp => exact h.length_eq.trans hp.length_eq

theorem EqualMembers.breadth_eq (h : EqualMembers ms ns) : breadth ms = breadth ns := by
  induction ms generalizing ns with
  | nil =>
    cases h
    rfl
  | cons m ms ih =>
    cases h with
    | cons h hs =>
      rw [breadth, breadth, ih hs]
      exact congrArg (· + _) h.width_eq

theorem breadth_perm (h : ms.Perm ns) : breadth ms = breadth ns := by
  induction h with
  | nil => rfl
  | cons m _ ih => exact congrArg (m.2.width + ·) ih
  | swap m n ms => exact Nat.add_left_comm _ _ _
  | trans _ _ ih₁ ih₂ => exact ih₁.trans ih₂

theorem Equal.breadth_eq (h : Equal (.obj ms) (.obj ns)) : breadth ms = breadth ns := by
  cases h with
  | refl => rfl
  | obj h hp => exact h.breadth_eq.trans (breadth_perm hp)

end Equal

end Json

namespace Tool

open Json

/-! ## The schema of a property -/

namespace Property

/-- Whether a schema has no idle members. -/
def isPlain : Json → Bool
  | .obj ms => !ms.any isIdle
  | _ => true

variable {given shown : Json}

theorem Same.width_le (h : Same given shown) : shown.width ≤ given.width := by
  obtain ⟨ms, ns, rfl, rfl, hp⟩ := h
  exact hp.length_eq.trans_le (List.length_filter_le _ ms)

theorem Same.equal (h : Same given shown) (hplain : isPlain given) : Equal given shown := by
  obtain ⟨ms, ns, rfl, rfl, hp⟩ := h
  have hall : ms.filter (fun m => !isIdle m) = ms := by
    refine List.filter_eq_self.2 fun m hm => ?_
    simp only [isPlain, Bool.not_eq_true', List.any_eq_false] at hplain
    simpa using hplain m hm
  rw [hall] at hp
  exact equal_of_perm hp.symm

/-- An idle member that was left out is missing in the number of members. -/
theorem Same.isPlain (h : Same given shown) (hwidth : given.width ≤ shown.width) :
    isPlain given := by
  obtain ⟨ms, ns, rfl, rfl, hp⟩ := h
  have hall : ∀ m ∈ ms, (!isIdle m) = true := by
    refine List.length_filter_eq_length_iff.1 (Nat.le_antisymm (List.length_filter_le _ ms) ?_)
    exact hp.length_eq ▸ hwidth
  simp only [Property.isPlain, Bool.not_eq_true', List.any_eq_false]
  exact fun m hm => by simpa using hall m hm

end Property

/-! ## The schema of the parameters -/

namespace Parameters

section Properties

/-- Some properties, and their schemas up to the order of members and to idle ones. -/
abbrev SameProperties : Members → Members → Prop :=
  List.Forall₂ fun m n => m.1 = n.1 ∧ Property.Same m.2 n.2

variable {ms ns : Members}

theorem equalMembers_of_plain (h : SameProperties ms ns)
    (hplain : ∀ m ∈ ms, Property.isPlain m.2) : EqualMembers ms ns := by
  induction h with
  | nil => exact .nil
  | @cons m n _ _ h _ ih =>
    obtain ⟨k, v⟩ := m
    obtain ⟨l, w⟩ := n
    obtain ⟨rfl, hsame⟩ := h
    obtain ⟨hv, hms⟩ := List.forall_mem_cons.1 hplain
    exact .cons (hsame.equal hv) (ih hms)

theorem breadth_le (h : SameProperties ms ns) : breadth ns ≤ breadth ms := by
  induction h with
  | nil => exact Nat.le_refl _
  | cons h _ ih => exact Nat.add_le_add h.2.width_le ih

theorem plain_of_breadth (h : SameProperties ms ns) (hb : breadth ms ≤ breadth ns) :
    ∀ m ∈ ms, Property.isPlain m.2 := by
  induction h with
  | nil => exact List.forall_mem_nil _
  | @cons m n ms ns h hs ih =>
    have hwidth := h.2.width_le
    have hbreadth := breadth_le hs
    rw [breadth, breadth] at hb
    exact List.forall_mem_cons.2 ⟨h.2.isPlain (by omega), ih (by omega)⟩

/-- Properties are shown with the schemas that they were given if these have no idle members. -/
theorem equal_properties_iff (h : SameProperties ms ns) :
    Equal (.obj ms) (.obj ns) ↔ ∀ m ∈ ms, Property.isPlain m.2 := by
  constructor
  · exact fun he => plain_of_breadth h (Nat.le_of_eq he.breadth_eq)
  · exact fun hplain => .obj (equalMembers_of_plain h hplain) (.refl _)

end Properties

/-- Whether the schemas of some properties have no idle members. -/
def allPlain : Json → Bool
  | .obj ps => ps.all fun m => Property.isPlain m.2
  | _ => true

/-- Whether a keyword of a schema gets through with its value. -/
def keeps (m : String × Json) : Bool :=
  if m.1 = "type" then m.2 == .str "object"
  else if m.1 = "properties" then allPlain m.2
  else m.1 == "required"

section Keywords

variable {p : Parameters} {k : String} {v : Json}

theorem has_type_iff : Has p.toJson ("type", v) ↔ v = .str "object" := by
  constructor
  · rintro ⟨w, hw, he⟩
    cases hw
    exact he.eq_str
  · rintro rfl
    exact ⟨_, rfl, .refl _⟩

theorem has_properties_iff (h : Decode.dictionary Property.decode v = .ok p.properties) :
    Has p.toJson ("properties", v) ↔ allPlain v := by
  cases v with
  | obj ps =>
    have hsame : SameProperties ps (p.properties.map fun e => (e.1, e.2.toJson)) :=
      List.forall₂_map_right_iff.2
        ((Decode.dictionary_eq_ok_iff.1 h).imp fun m e he => ⟨he.1, Property.same_of_decode he.2⟩)
    rw [allPlain, List.all_eq_true, ← equal_properties_iff hsame]
    constructor
    · rintro ⟨w, hw, he⟩
      cases hw
      exact he
    · exact fun he => ⟨_, rfl, he⟩
  | null | bool | num | str | arr => cases h

theorem has_required (h : Decode.list Decode.string v = .ok p.required) :
    Has p.toJson ("required", v) :=
  ⟨_, rfl, by rw [Decode.eq_of_list_string h]; exact .refl _⟩

theorem not_has (h : k ∉ ["type", "properties", "required"]) : ¬Has p.toJson (k, v) := by
  rintro ⟨w, hw, -⟩
  have hk : k ∈ (Members.compact p.members).map Prod.fst := Members.mem_names_of_lookup hw
  exact h hk

/-- A keyword of a schema that is read is written again only if it is one of three, and with the
same value only if that was no odd spelling. -/
theorem has_iff_keeps {ms : Members} {m : String × Json} (h : decode (.obj ms) = .ok p)
    (hm : m ∈ ms) : Has p.toJson m ↔ keeps m := by
  obtain ⟨k, v⟩ := m
  obtain ⟨lead, trail, rfl⟩ := List.append_of_mem hm
  obtain ⟨_, required, h₂, hrequired, he⟩ := (Fields.took_of_decode h).seq
  obtain ⟨_, properties, h₁, hproperties, rfl⟩ := h₂.seq
  obtain ⟨_, -, rfl⟩ := h₁.map
  cases he
  unfold keeps
  dsimp only
  split_ifs with htype hprop
  · subst htype
    rw [has_type_iff, beq_iff_eq]
  · subst hprop
    exact has_properties_iff (Fields.took_member hproperties)
  · rw [beq_iff_eq]
    constructor
    · intro hhas
      by_contra hreq
      exact not_has (by simp [htype, hprop, hreq]) hhas
    · rintro rfl
      exact has_required (Fields.took_member hrequired)

end Keywords

end Parameters

end Tool

namespace Mcp

/-! ## The schema of a tool of a server -/

namespace RemoteTool

/-- The keywords of the schema that a server gives for a tool. -/
def keywords (r : RemoteTool) : Json.Members :=
  match r.inputSchema with
  | .obj ms => ms
  | _ => []

end RemoteTool

end Mcp

/-- The parameters of the tool in a place, as a request for inference shows them. -/
def shownParameters? (request : Json) (i : Nat) : Option Json :=
  match request.get? "tools" with
  | some (.arr entries) =>
    ((entries[i]?).bind fun entry => entry.get? "function").bind fun f => f.get? "parameters"
  | _ => none

theorem shownParameters_request {a : Agent} {i : Nat} {t : Tool} (h : a.tools.tools[i]? = some t)
    (o : Agent.RunOptions) :
    shownParameters? (a.inferenceRequest o) i = some t.description.parameters.toJson := by
  have hentry : (a.tools.descriptions.map Tool.Description.functionSpec)[i]? =
      some t.description.functionSpec := by
    simp [Tool.Registry.descriptions, h]
  show ((a.tools.descriptions.map Tool.Description.functionSpec)[i]?.bind fun entry =>
    entry.get? "function").bind (fun f => f.get? "parameters") = _
  rw [hentry]
  exact (Json.Members.lookup_compact t.description.nodup_members "parameters").trans rfl

namespace Mcp

/-- The model sees every keyword of the schema that a server gives for a tool exactly if the schema
has no others than it is read for, its type is written as a text, and its properties have no idle
members. -/
theorem schema_kept_iff {r : RemoteTool} {server : Server} {t : Tool} {a : Agent} {i : Nat}
    (h : r.tool server = .ok t) (ht : a.tools.tools[i]? = some t) (o : Agent.RunOptions) :
    ∃ parameters, shownParameters? (a.inferenceRequest o) i = some parameters ∧
      ((∀ m ∈ r.keywords, parameters.Has m) ↔
        ∀ m ∈ r.keywords, Tool.Parameters.keeps m) := by
  refine ⟨_, shownParameters_request ht o, ?_⟩
  cases Agent.standsFor_iff.1 h with
  | remote hp =>
    refine forall₂_congr fun m hm => ?_
    unfold RemoteTool.keywords at hm
    split at hm
    · rename_i ms hms
      rw [hms] at hp
      exact Tool.Parameters.has_iff_keeps hp hm
    · cases hm

/-- A tool that is called with a day. -/
def booking (schema : Json) : RemoteTool := ⟨"book", some "books a room", schema⟩

/-- A schema that says on the spot what a day is. -/
def closedSchema : Json :=
  .obj [("properties", .obj [("from", .obj [("format", .str "date"), ("type", .str "string")])]),
    ("required", .arr [.str "from"]), ("type", .str "object")]

/-- A schema that says so elsewhere. -/
def openSchema : Json :=
  .obj [("type", .str "object"),
    ("properties", .obj [("from", .obj [("$ref", .str "#/$defs/day")])]),
    ("required", .arr [.str "from"]),
    ("$defs", .obj [("day", .obj [("type", .str "string"), ("format", .str "date")])])]

theorem closedSchema_kept :
    ∃ t, (booking closedSchema).tool ⟨"srv", [], [], none⟩ = .ok t ∧
      let a := Agent.fresh (.qwen "small" "Qwen") [t]
      a.tools.tools[0]? = some t ∧ ∃ parameters,
        shownParameters? (a.inferenceRequest ⟨false, false⟩) 0 = some parameters ∧
        ∀ m ∈ (booking closedSchema).keywords, parameters.Has m := by
  have h : (booking closedSchema).tool ⟨"srv", [], [], none⟩ = .ok _ := rfl
  have hfirst (t : Tool) : (Agent.fresh (.qwen "small" "Qwen") [t]).tools.tools[0]? = some t := rfl
  obtain ⟨parameters, hshown, hiff⟩ := schema_kept_iff h (hfirst _) ⟨false, false⟩
  exact ⟨_, h, hfirst _, parameters, hshown, hiff.2 (by decide +kernel)⟩

/-- The reference is shown, and what it refers to is not. -/
theorem openSchema_cut :
    ∃ t, (booking openSchema).tool ⟨"srv", [], [], none⟩ = .ok t ∧
      let a := Agent.fresh (.qwen "small" "Qwen") [t]
      a.tools.tools[0]? = some t ∧ ∃ parameters,
        shownParameters? (a.inferenceRequest ⟨false, false⟩) 0 = some parameters ∧
        parameters = .obj [("type", .str "object"),
          ("properties", .obj [("from", .obj [("$ref", .str "#/$defs/day")])]),
          ("required", .arr [.str "from"])] ∧
        ¬∀ m ∈ (booking openSchema).keywords, parameters.Has m := by
  refine ⟨_, rfl, rfl, _, rfl, rfl, fun h => ?_⟩
  have hdefs : ("$defs", _) ∈ (booking openSchema).keywords :=
    List.mem_cons_of_mem _ (List.mem_cons_of_mem _ (List.mem_cons_of_mem _ List.mem_cons_self))
  obtain ⟨w, hw, -⟩ := h _ hdefs
  cases hw

end Mcp

end Parley
