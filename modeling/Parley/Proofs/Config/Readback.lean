/-
Reading back the file of a configuration. What is written for a configuration is read as the same
configuration (`parse_document`), fields that are left out included; the entries of a table may
change places on the way, and credentials may be listed in any order. So the text that is shown of a
configuration holds all of it but the secrets (`shown_reads_back`).
-/
import Parley.Command
import Parley.Proofs.Config.WellFormed
import Parley.Proofs.Dictionary
import Parley.Proofs.Http.Wire
import Parley.Proofs.Json.Admission
import Parley.Proofs.Toml.Document
import Mathlib.Data.List.Perm.Basic

namespace Parley

open Json

/-! ## Tables and records -/

namespace Toml

theorem entriesToJson_eq (es : List (String × Toml)) :
    entriesToJson es = es.map fun e => (e.1, e.2.toJson) := by
  induction es with
  | nil => rfl
  | cons e es ih =>
    obtain ⟨k, v⟩ := e
    rw [entriesToJson, ih, List.map_cons]

theorem itemsToJson_eq (vs : List Toml) : itemsToJson vs = vs.map toJson := by
  induction vs with
  | nil => rfl
  | cons v vs ih => rw [itemsToJson, ih, List.map_cons]

theorem arrangedItems_eq (vs : List Toml) : arrangedItems vs = vs.map arranged := by
  induction vs with
  | nil => rfl
  | cons v vs ih => rw [arrangedItems, ih, List.map_cons]

/-- What is read of a value that was written in a document. -/
def readJson (v : Toml) : Json := (arranged v).toJson

/-- What is read of a table has the entries of the table, in some order. -/
theorem readJson_table (es : List (String × Toml)) :
    ∃ ms, readJson (.table es) = .obj ms ∧ ms.Perm (es.map fun e => (e.1, readJson e.2)) := by
  refine ⟨entriesToJson (direct es ++ headed es), ?_, ?_⟩
  · rw [readJson, arranged, toJson]
  · have hperm := (arranged_perm es).map fun e => (e.1, e.2.toJson)
    rw [List.map_map] at hperm
    rw [entriesToJson_eq]
    exact hperm

theorem readJson_texts (xs : List String) : readJson (Config.texts xs) = .arr (xs.map .str) := by
  have hdirect : hasHeader (Config.texts xs) = false := by
    cases xs <;> rfl
  rw [readJson, arranged_of_direct hdirect, Config.texts, toJson, itemsToJson_eq, List.map_map]
  rfl

theorem readJson_tables {vs : List Toml} (h : ∀ v ∈ vs, isTable v = true) :
    readJson (.arr vs) = .arr (vs.map readJson) := by
  have hitems : (arrangedItems vs).map toJson = vs.map readJson := by
    rw [arrangedItems_eq, List.map_map]
    rfl
  cases vs with
  | nil => rfl
  | cons v vs =>
    have hheader : hasHeader (.arr (v :: vs)) = true := by
      rw [hasHeader, Bool.and_eq_true, List.all_eq_true]
      exact ⟨rfl, h⟩
    rw [readJson, arranged, if_pos hheader, toJson, itemsToJson_eq, hitems]

end Toml

namespace Config

open Toml (readJson Laid Plain)

/-! ### Fields that are left out -/

section Compact

variable {fs : List (String × Option Toml)}

theorem map_compact (f : Toml → Json) : (compact fs).map (fun e => (e.1, f e.2)) =
    Members.compact (fs.map fun e => (e.1, e.2.map f)) := by
  unfold compact Members.compact
  rw [List.map_filterMap, List.filterMap_map]
  refine List.filterMap_congr fun e _ => ?_
  obtain ⟨k, v⟩ := e
  cases v <;> rfl

variable (hn : (fs.map Prod.fst).Nodup)

include hn

theorem nodup_compact : ((compact fs).map Prod.fst).Nodup := by
  have hnames : (compact fs).map Prod.fst =
      (Members.compact (fs.map fun e => (e.1, e.2.map readJson))).map Prod.fst := by
    rw [← map_compact, List.map_map]
    rfl
  rw [hnames]
  refine Members.nodup_compact ?_
  rwa [List.map_map]

/-- A record is read as an object whose members are known by their names. -/
theorem readJson_compact : ∃ ms : Members, readJson (.table (compact fs)) = .obj ms ∧
    (ms.map Prod.fst).Nodup ∧ ∀ k, ms.lookup k = (fs.lookup k).join.map readJson := by
  obtain ⟨ms, hread, hperm⟩ := Toml.readJson_table (compact fs)
  have hfields : ((fs.map fun e => (e.1, e.2.map readJson)).map Prod.fst).Nodup := by
    rwa [List.map_map]
  rw [map_compact] at hperm
  have hcompact := Members.nodup_compact hfields
  have hms : (ms.map Prod.fst).Nodup := (hperm.map Prod.fst).nodup_iff.2 hcompact
  refine ⟨ms, hread, hms, fun k => ?_⟩
  have hlookup : ms.lookup k =
      (Members.compact (fs.map fun e => (e.1, e.2.map readJson))).lookup k := Option.ext fun v => by
    rw [lookup_eq_some_iff_mem hms, lookup_eq_some_iff_mem hcompact, hperm.mem_iff]
  have hmap : (fs.map fun e => (e.1, e.2.map readJson)).lookup k =
      (fs.lookup k).map fun v => v.map readJson :=
    Dictionary.get?_map fs (fun v => v.map readJson) k
  rw [hlookup, Members.lookup_compact hfields, hmap]
  cases fs.lookup k <;> rfl

end Compact

/-! ## Decoding -/

theorem gives_decodeOpen {α : Type} {fs : Fields α} {ms : Members} {a : α}
    (h : fs.Gives (.named ms) a) : fs.decodeOpen (.obj ms) = .ok a := by
  show Fields.unlocated (fs.read (.named ms) 0) = _
  rw [h]
  rfl

/-- A field that was left out when it has no value is read in either case. -/
theorem gives_optional {α : Type} {d : Decode α} {enc : α → Toml} {ms : Members} {k : String}
    {a : Option α} (hn : (ms.map Prod.fst).Nodup) (hl : ms.lookup k = (a.map enc).map readJson)
    (hd : ∀ b ∈ a, d.nullable (readJson (enc b)) = .ok (some b)) :
    (Fields.optional [k] d).Gives (.named ms) a := by
  cases a with
  | none => exact Fields.gives_of_nodup hn (.inl ⟨hl, rfl⟩)
  | some b => exact Fields.gives_of_member hn hl (hd b rfl)

/-- A dictionary is read from a table that lists its entries in any order. -/
theorem dictionary_readJson {α : Type} {d : Decode α} {enc : α → Toml}
    (h : ∀ a, d (readJson (enc a)) = .ok a) {listed dict : Dictionary α} (hp : listed.Perm dict)
    (hdict : dict.Ordered) :
    (Decode.dictionary d (readJson (.table (listed.map fun e => (e.1, enc e.2))))).map
      Dictionary.ofEntries = .ok dict := by
  obtain ⟨ms, hread, hperm⟩ := Toml.readJson_table (listed.map fun e => (e.1, enc e.2))
  have heach : List.Forall₂ (fun m e => m.1 = e.1 ∧ d m.2 = .ok e.2)
      ((listed.map fun e => (e.1, enc e.2)).map fun e => (e.1, readJson e.2)) listed := by
    rw [List.map_map, List.forall₂_map_left_iff]
    exact List.forall₂_same.2 fun e _ => ⟨rfl, h e.2⟩
  obtain ⟨es, hes, hlisted⟩ := List.perm_comp_forall₂ hperm heach
  rw [hread, Decode.dictionary_eq_ok_iff.2 hes]
  exact congrArg Except.ok (hdict.ofEntries_of_perm (hlisted.trans hp))

/-! ### Records -/

/-- The fields of credentials in their file. -/
def Credentials.fields (c : Credentials) : List (String × Option Toml) :=
  [("token", some (.str c.token)), ("format", some (.str c.format))]

theorem Credentials.nodup_fields (c : Credentials) : (c.fields.map Prod.fst).Nodup := by
  show ["token", "format"].Nodup
  decide

theorem Credentials.decode_readJson (c : Credentials) :
    Credentials.decode (readJson c.toToml) = .ok c := by
  obtain ⟨ms, hread, hn, hl⟩ := readJson_compact c.nodup_fields
  have htoml : c.toToml = .table (compact c.fields) := rfl
  rw [htoml, hread]
  refine gives_decodeOpen (Fields.Gives.seq (Fields.Gives.map Credentials.mk ?token) ?format)
  case token => exact Fields.gives_of_member hn (hl "token") rfl
  case format => exact Fields.gives_of_member hn (hl "format") rfl

/-- The fields of a server in its file. -/
def Entry.fields (e : Entry) : List (String × Option Toml) :=
  [("name", some (.str e.name)), ("command", some (.str e.server.command)),
    ("args", some (texts e.server.args)),
    ("env", some (.table (e.server.env.map fun v => (v.1, .str v.2)))),
    ("cwd", e.server.cwd.map .str), ("tools", e.tools.map texts)]

theorem Entry.nodup_fields (e : Entry) : (e.fields.map Prod.fst).Nodup := by
  show ["name", "command", "args", "env", "cwd", "tools"].Nodup
  decide

theorem list_readJson (xs : List String) :
    Decode.list Decode.string (readJson (texts xs)) = .ok xs := by
  rw [Toml.readJson_texts]
  exact Decode.list_map (fun (s : String) => (rfl : Decode.string (.str s) = .ok s)) xs

theorem Entry.decode_readJson (e : Entry) (h : e.server.env.Ordered) :
    Entry.decode (readJson e.toToml) = .ok e := by
  obtain ⟨ms, hread, hn, hl⟩ := readJson_compact e.nodup_fields
  have htoml : e.toToml = .table (compact e.fields) := rfl
  rw [htoml, hread]
  refine gives_decodeOpen (a := e) (Fields.Gives.seq (Fields.Gives.seq (Fields.Gives.seq
    (Fields.Gives.seq (Fields.Gives.seq (Fields.Gives.map _ ?name) ?command) ?args) ?env) ?cwd)
    ?tools)
  case name => exact Fields.gives_of_member hn (hl "name") rfl
  case command => exact Fields.gives_of_member hn (hl "command") rfl
  case args => exact Fields.gives_of_member hn (hl "args") (list_readJson _)
  case env =>
    exact Fields.gives_of_member hn (hl "env") (dictionary_readJson (fun _ => rfl) (.refl _) h)
  case cwd => exact gives_optional hn (hl "cwd") fun _ _ => rfl
  case tools =>
    refine gives_optional hn (hl "tools") fun tools _ => ?_
    refine Fields.nullable_eq_some_iff.2 ⟨?_, list_readJson tools⟩
    rw [Toml.readJson_texts]
    nofun

/-! ### The whole configuration -/

/-- The fields of a configuration in its file. -/
def fields (c : Config) : List (String × Option Toml) :=
  [("model", some (.str c.model)), ("api_key", c.apiKey.map .str),
    ("device", c.device.map fun (n : Nat) => .int n), ("system_message", c.systemMessage.map .str),
    ("enable_reasoning", some (.bool c.enableReasoning)),
    ("ignore_reasoning_messages", some (.bool c.ignoreReasoning)),
    ("preset_dir", some (.str c.presetDir)), ("presets", some (texts c.presets)),
    ("auth", some (.table (c.auth.map fun e => (e.1, e.2.toToml)))),
    ("mcp_servers", some (.arr (c.servers.map Entry.toToml)))]

theorem nodup_fields (c : Config) : (c.fields.map Prod.fst).Nodup := by
  show ["model", "api_key", "device", "system_message", "enable_reasoning",
    "ignore_reasoning_messages", "preset_dir", "presets", "auth", "mcp_servers"].Nodup
  decide

theorem entries_eq (c : Config) : c.entries = compact c.fields := by
  unfold entries fields
  cases c.device <;> rfl

theorem servers_readJson {servers : List Entry} (h : ∀ e ∈ servers, e.server.env.Ordered) :
    Decode.list Entry.decode (readJson (.arr (servers.map Entry.toToml))) = .ok servers := by
  have htables : ∀ v ∈ servers.map Entry.toToml, Toml.isTable v = true := by
    intro v hv
    obtain ⟨e, -, rfl⟩ := List.mem_map.1 hv
    rfl
  rw [Toml.readJson_tables htables, List.map_map]
  exact Decode.mapM_eq_ok_iff.2 (List.forall₂_map_left_iff.2
    (List.forall₂_same.2 fun e he => e.decode_readJson (h e he)))

/-- A number of 32 bits is read from the integer that it was written as. -/
theorem natural_readJson {n : Nat} (h : n < 2 ^ 32) :
    Decode.natural 32 (readJson (.int n)) = .ok n := by
  have hread : Decode.integer 0 (Int.ofNat (Nat.pow 2 32) - 1) (.num (.int n)) = .ok (n : Int) := by
    refine if_pos ⟨?_, ?_⟩
    · omega
    · have hpow : Int.ofNat (Nat.pow 2 32) = 2 ^ 32 := rfl
      rw [hpow]
      omega
  show (Decode.integer 0 (Int.ofNat (Nat.pow 2 32) - 1) (.num (.int n))).map Int.toNat = _
  rw [hread]
  exact congrArg Except.ok (Int.toNat_natCast n)

/-- A configuration is read from its table; the credentials may be listed in any order. -/
theorem decode_readJson {c : Config} (hc : c.WF) {listed : Dictionary Credentials}
    (hp : listed.Perm c.auth) (env : Environment) :
    decode env (readJson (.table { c with auth := listed }.entries)) = .ok c := by
  obtain ⟨ms, hread, hn, hl⟩ := readJson_compact (nodup_fields { c with auth := listed })
  rw [entries_eq, hread]
  refine gives_decodeOpen (a := c) (Fields.Gives.seq (Fields.Gives.seq (Fields.Gives.seq
    (Fields.Gives.seq (Fields.Gives.seq (Fields.Gives.seq (Fields.Gives.seq (Fields.Gives.seq
    (Fields.Gives.seq (Fields.Gives.map _ ?model) ?key) ?device) ?message) ?reasoning) ?ignore)
    ?dir) ?presets) ?auth) ?servers)
  case model => exact Fields.gives_of_member hn (hl "model") rfl
  case key => exact gives_optional hn (hl "api_key") fun _ _ => rfl
  case device =>
    refine gives_optional hn (hl "device") fun n hmem => ?_
    exact Fields.nullable_eq_some_iff.2 ⟨nofun, natural_readJson (hc.device n hmem)⟩
  case message => exact gives_optional hn (hl "system_message") fun _ _ => rfl
  case reasoning => exact Fields.gives_of_member hn (hl "enable_reasoning") rfl
  case ignore => exact Fields.gives_of_member hn (hl "ignore_reasoning_messages") rfl
  case dir => exact Fields.gives_of_member hn (hl "preset_dir") rfl
  case presets => exact Fields.gives_of_member hn (hl "presets") (list_readJson _)
  case auth =>
    exact Fields.gives_of_member hn (hl "auth")
      (dictionary_readJson Credentials.decode_readJson hp hc.auth)
  case servers =>
    exact Fields.gives_of_member hn (hl "mcp_servers") (servers_readJson hc.envs)

/-! ## The written document -/

theorem plain_texts (depth : Nat) (xs : List String) : Plain (depth + 1) (texts xs) := by
  refine .arr fun v hv => ?_
  obtain ⟨s, -, rfl⟩ := List.mem_map.1 hv
  exact .str

/-- The fields of a record that are there are laid out if each of them is. -/
theorem laid_compact {depth : Nat} {fs : List (String × Option Toml)}
    (h : ∀ f ∈ fs, ∀ v ∈ f.2, Laid depth v) : ∀ e ∈ compact fs, Laid depth e.2 := by
  intro e he
  obtain ⟨⟨k, v⟩, hf, hv⟩ := List.mem_filterMap.1 he
  obtain ⟨w, hw, rfl⟩ := Option.map_eq_some_iff.1 hv
  exact h (k, v) hf w hw

theorem laid_some {depth : Nat} {w : Toml} (h : Laid depth w) : ∀ v ∈ some w, Laid depth v := by
  rintro v ⟨⟩
  exact h

theorem laid_str (depth : Nat) (s : Option String) : ∀ v ∈ s.map Toml.str, Laid depth v := by
  intro v hv
  obtain ⟨s, -, rfl⟩ := Option.map_eq_some_iff.1 hv
  exact .value .str

theorem Credentials.laid (c : Credentials) (depth : Nat) : Laid (depth + 1) c.toToml := by
  have hfields : ∀ e ∈ compact c.fields, Laid depth e.2 := by
    refine laid_compact ?_
    simp only [fields, List.forall_mem_cons, List.not_mem_nil, IsEmpty.forall_iff, implies_true,
      and_true]
    exact ⟨laid_str depth (some c.token), laid_str depth (some c.format)⟩
  exact .table (nodup_compact c.nodup_fields) hfields

/-- A dictionary is a table whose names are distinct. -/
theorem laid_dictionary {α : Type} {enc : α → Toml} {depth : Nat} (h : ∀ a, Laid depth (enc a))
    {d : Dictionary α} (hd : (d.map Prod.fst).Nodup) :
    Laid (depth + 1) (.table (d.map fun e => (e.1, enc e.2))) := by
  refine .table ?_ fun e he => ?_
  · rwa [List.map_map]
  · obtain ⟨v, -, rfl⟩ := List.mem_map.1 he
    exact h v.2

theorem Entry.laid {e : Entry} (h : e.server.env.Ordered) :
    ∀ f ∈ compact e.fields, Laid 78 f.2 := by
  refine laid_compact ?_
  simp only [fields, List.forall_mem_cons, List.not_mem_nil, IsEmpty.forall_iff, implies_true,
    and_true]
  refine ⟨?name, ?command, ?args, ?env, ?cwd, ?tools⟩
  case name => exact laid_str _ (some e.name)
  case command => exact laid_str _ (some e.server.command)
  case args => exact laid_some (.value (plain_texts 78 e.server.args))
  case env =>
    have hstr (s : String) : Laid 77 (.str s) := .value .str
    exact laid_some (laid_dictionary hstr h.nodup)
  case cwd => exact laid_str _ e.server.cwd
  case tools =>
    intro v hv
    obtain ⟨tools, -, rfl⟩ := Option.map_eq_some_iff.1 hv
    exact .value (plain_texts 78 tools)

theorem laid_servers {servers : List Entry} (h : ∀ e ∈ servers, e.server.env.Ordered) :
    Laid Toml.depthMax (.arr (servers.map Entry.toToml)) := by
  by_cases hempty : servers = []
  · rw [hempty]
    exact .value (plain_texts 78 [])
  · have htables : servers.map Entry.toToml =
        (servers.map fun e => compact e.fields).map Toml.table := by
      rw [List.map_map]
      rfl
    rw [htables]
    refine .tables (mt List.map_eq_nil_iff.1 hempty) ?_ ?_
    · rintro es hes
      obtain ⟨e, -, rfl⟩ := List.mem_map.1 hes
      exact nodup_compact e.nodup_fields
    · rintro es hes
      obtain ⟨e, he, rfl⟩ := List.mem_map.1 hes
      exact Entry.laid (h e he)

theorem laid_fields {c : Config} (hc : c.WF) {listed : Dictionary Credentials}
    (hp : listed.Perm c.auth) :
    ∀ e ∈ compact { c with auth := listed }.fields, Laid Toml.depthMax e.2 := by
  refine laid_compact ?_
  simp only [fields, List.forall_mem_cons, List.not_mem_nil, IsEmpty.forall_iff, implies_true,
    and_true]
  refine ⟨?model, ?key, ?device, ?message, ?reasoning, ?ignore, ?dir, ?presets, ?auth, ?servers⟩
  case model => exact laid_str _ (some c.model)
  case key => exact laid_str _ c.apiKey
  case device =>
    intro v hv
    obtain ⟨n, hn, rfl⟩ := Option.map_eq_some_iff.1 hv
    exact .value (.int (Nat.lt_trans (hc.device n hn) (by decide)))
  case message => exact laid_str _ c.systemMessage
  case reasoning | ignore => exact laid_some (.value .bool)
  case dir => exact laid_str _ (some c.presetDir)
  case presets => exact laid_some (.value (plain_texts 78 c.presets))
  case auth =>
    refine laid_some (laid_dictionary (fun cred => cred.laid 77) ?_)
    exact (hp.map Prod.fst).nodup_iff.2 hc.auth.nodup
  case servers => exact laid_some (laid_servers hc.envs)

/-- What is written for a configuration is read as the configuration. -/
theorem parse_document {c : Config} (hc : c.WF) {listed : Dictionary Credentials}
    (hp : listed.Perm c.auth) (env : Environment) :
    parse env (Text.unlines [{ c with auth := listed }.document]) = .ok c := by
  have hread := Toml.parse?_document (nodup_compact (nodup_fields { c with auth := listed }))
    (laid_fields hc hp)
  unfold parse document
  rw [entries_eq, hread]
  show (decode env (readJson _)).mapError Fault.message = _
  rw [← entries_eq, decode_readJson hc hp]
  rfl

end Config

namespace Command

/-- The text that is shown of a configuration is read as the configuration, with a mark in the place
of each secret, in whatever order the credentials are listed. It is such a text that a user is
shown. -/
theorem shown_reads_back {c : Config} (hc : c.WF) {listed : Dictionary Config.Credentials}
    (hp : listed.Perm c.auth) (env : Environment) :
    Config.parse env (Text.unlines [{ c with auth := listed }.redacted.document]) = .ok
        { c with
          apiKey := c.apiKey.map fun _ => "[REDACTED]"
          auth := c.auth.map fun e => (e.1, ⟨"[REDACTED]", e.2.format⟩) } ∧
      ∀ (context : Context) (d : Config), Config.load context.files context.env = .ok d →
        d.WF ∧ configShow.run context = ⟨Text.unlines [d.redacted.document], none⟩ := by
  constructor
  · have hauth : c.redacted.auth.Ordered := List.pairwise_map.2 hc.auth
    have hredacted : c.redacted.WF := ⟨hc.device, hauth, hc.envs⟩
    exact Config.parse_document hredacted (hp.map _) env
  · intro context d h
    refine ⟨Config.wf_of_load h, ?_⟩
    unfold run showConfig Context.config
    rw [h]
    rfl

/-- A user with two tokens, a key in the environment and two servers, one of which may offer none
of its tools. -/
def workshop : Context where
  files := .ofPaths [("/home/.toolweave/config.toml",
    "[auth.f]\ntoken='t'\n[auth.'a\\']\ntoken='u'\n" ++
    "[[mcp_servers]]\nname='x'\ncommand='c'\ncwd=''\ntools=[]\n[mcp_servers.env]\nK='v'\n" ++
    "[[mcp_servers]]\nname='y'\ncommand='d'\n")] []
  env name :=
    if name = "HOME" then some "/home" else if name = "OPENAI_API_KEY" then some "k" else none
  connector _ server := .error (.spawn server.command "no such file")

/-- What is in force for the user. -/
def workshopConfig : Config :=
  { Config.default workshop.env with
    apiKey := some "k"
    auth := [("a\\", ⟨"u", "Bearer"⟩), ("f", ⟨"t", "Bearer"⟩)]
    servers := [⟨"x", ⟨"c", [], [("K", "v")], some ""⟩, some []⟩,
      ⟨"y", ⟨"d", [], [], none⟩, none⟩] }

/-- The empty filter of one server stays apart from the absent filter of the other. -/
theorem workshop_reads_back :
    let listed := [("f", ⟨"t", "Bearer"⟩), ("a\\", ⟨"u", "Bearer"⟩)]
    Config.load workshop.files workshop.env = .ok workshopConfig ∧ workshopConfig.WF ∧
      listed.Perm workshopConfig.auth ∧
      Config.parse workshop.env
          (Text.unlines [{ workshopConfig with auth := listed }.redacted.document]) = .ok
        { workshopConfig with
          apiKey := some "[REDACTED]"
          auth := [("a\\", ⟨"[REDACTED]", "Bearer"⟩), ("f", ⟨"[REDACTED]", "Bearer"⟩)] } ∧
      configShow.run workshop = ⟨Text.unlines [workshopConfig.redacted.document], none⟩ := by
  intro listed
  have hload : Config.load workshop.files workshop.env = .ok workshopConfig := by decide +kernel
  have hp : listed.Perm workshopConfig.auth := .swap _ _ _
  have hc : workshopConfig.WF := Config.wf_of_load hload
  obtain ⟨hread, hshown⟩ := shown_reads_back hc hp workshop.env
  exact ⟨hload, hc, hp, hread, (hshown workshop _ hload).2⟩

end Command

end Parley
