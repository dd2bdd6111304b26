/-
Which configurations are valid. The rules are those of `Rules`, and a configuration is accepted
exactly when it obeys them. Servers are judged in the order of the file, each by itself and by the
names in front of it (`Entry.IsFaulty`); what is reported is the fault of the first that is faulty,
and a blank command before a name that was taken (`validated_exact`).
-/
import Parley.Proofs.Config.Loading
import Mathlib.Data.List.Induction
import Mathlib.Data.List.Nodup
import Mathlib.Data.List.TakeWhile

namespace Parley

namespace Text

/-- A text has nothing but blanks when nothing is left of it once it is trimmed. -/
theorem trim_eq_empty_iff (s : String) : trim s = "" ↔ isBlankText s = true := by
  have hend (cs : List Char) : trimEnd cs = [] ↔ ∀ c ∈ cs, isBlank c = true := by
    simp [trimEnd, List.dropWhile_eq_nil_iff]
  rw [trim, ← String.toList_eq_nil_iff, String.toList_ofList, hend, isBlankText, List.all_eq_true]
  constructor
  · intro h
    -- a first character that is no blank would be left
    have hnil : trimStart s.toList = [] := by
      unfold trimStart at h ⊢
      by_contra hne
      have hhead := List.head_dropWhile_not isBlank hne
      rw [h _ (List.head_mem hne)] at hhead
      cases hhead
    exact List.dropWhile_eq_nil_iff.1 hnil
  · exact fun h c hc => h c (List.dropWhile_sublist _ |>.mem hc)

end Text

namespace Config

variable {es pre : List Entry} {e : Entry} {names : List String}

/-! ## Rules -/

/-- What a valid configuration obeys. -/
structure Rules (c : Config) : Prop where
  model : Text.trim c.model ≠ ""
  commands : ∀ e ∈ c.servers, Text.trim e.server.command ≠ ""
  /-- No two servers have one name. -/
  names : (c.servers.map Entry.name).Nodup
  tokens : ∀ e ∈ c.auth, e.2.token ≠ ""

/-- A server that breaks a rule behind servers of some names: its command is blank, or its name is
one of theirs. -/
def Entry.IsFaulty (names : List String) (e : Entry) : Prop :=
  Text.trim e.server.command = "" ∨ e.name ∈ names

/-- What is reported of a faulty server. -/
def Entry.complaint (e : Entry) : String :=
  if Text.trim e.server.command = "" then "mcp server '" ++ e.name ++ "' has an empty command"
  else "duplicate mcp server name '" ++ e.name ++ "'"

/-- The first faulty one of some servers, and those in front of it. -/
structure FirstFaulty (es pre : List Entry) (e : Entry) : Prop where
  stands : pre ++ [e] <+: es
  faulty : e.IsFaulty (pre.map Entry.name)
  first : ∀ before d, before ++ [d] <+: pre → ¬ d.IsFaulty (before.map Entry.name)

/-- Where some server is faulty there is a first. -/
theorem exists_firstFaulty (hs : pre ++ [e] <+: es) (hf : e.IsFaulty (pre.map Entry.name)) :
    ∃ pre e, FirstFaulty es pre e := by
  induction hlen : pre.length using Nat.strongRecOn generalizing pre e with
  | _ n ih =>
    by_cases hfirst : ∀ before d, before ++ [d] <+: pre → ¬ d.IsFaulty (before.map Entry.name)
    · exact ⟨pre, e, hs, hf, hfirst⟩
    · push Not at hfirst
      obtain ⟨before, d, hd, hfaulty⟩ := hfirst
      have hle := hd.length_le
      rw [List.length_append, List.length_singleton] at hle
      exact ih before.length (by omega) (hd.trans ((List.prefix_append _ _).trans hs)) hfaulty rfl

/-! ## Servers -/

/-- Servers that are not faulty are passed over. -/
theorem serverFault?_append (es : List Entry)
    (h : ∀ before d, before ++ [d] <+: pre → ¬ d.IsFaulty (before.map Entry.name ++ names)) :
    ∃ seen, (∀ name, name ∈ seen ↔ name ∈ pre.map Entry.name ++ names) ∧
      serverFault? names (pre ++ es) = serverFault? seen es := by
  induction pre generalizing names with
  | nil => exact ⟨names, fun _ => Iff.rfl, rfl⟩
  | cons d pre ih =>
    -- the name of the server that is passed over moves to those in front
    have hmove (before : List Entry) (name : String) :
        name ∈ before.map Entry.name ++ d.name :: names ↔
          name ∈ (d :: before).map Entry.name ++ names := by
      simp only [List.mem_append, List.mem_cons, List.map_cons, List.cons_append, or_left_comm]
    have hd : ¬ d.IsFaulty names := h [] d ⟨pre, rfl⟩
    have hpre : ∀ before e, before ++ [e] <+: pre →
        ¬ e.IsFaulty (before.map Entry.name ++ d.name :: names) := by
      intro before e he hf
      have hstands : (d :: before) ++ [e] <+: d :: pre := List.cons_prefix_cons.2 ⟨rfl, he⟩
      exact h (d :: before) e hstands (hf.imp_right (hmove before _).1)
    obtain ⟨seen, hseen, heq⟩ := ih hpre
    obtain ⟨hcommand, hname⟩ := not_or.1 hd
    rw [Text.trim_eq_empty_iff] at hcommand
    refine ⟨seen, fun name => (hseen name).trans (hmove pre name), ?_⟩
    rw [List.cons_append, serverFault?, if_neg hcommand, if_neg (by simpa using hname), heq]

theorem serverFault?_of_faulty (hf : e.IsFaulty names) (es : List Entry) :
    serverFault? names (e :: es) = some e.complaint := by
  unfold serverFault? Entry.complaint
  by_cases hblank : Text.trim e.server.command = ""
  · rw [if_pos ((Text.trim_eq_empty_iff _).1 hblank), if_pos hblank]
  · have hname : names.contains e.name = true := by simpa using hf.resolve_left hblank
    rw [if_neg (mt (Text.trim_eq_empty_iff _).2 hblank), if_pos hname, if_neg hblank]

theorem FirstFaulty.serverFault? (h : FirstFaulty es pre e) :
    serverFault? [] es = some e.complaint := by
  obtain ⟨post, rfl⟩ := h.stands
  have hfirst : ∀ before d, before ++ [d] <+: pre →
      ¬ d.IsFaulty (before.map Entry.name ++ []) := by
    simpa only [List.append_nil] using h.first
  rw [List.append_assoc]
  obtain ⟨seen, hseen, heq⟩ := serverFault?_append ([e] ++ post) hfirst
  rw [List.append_nil] at hseen
  have hfaulty : e.IsFaulty seen := h.faulty.imp_right (hseen _).2
  rw [heq]
  exact serverFault?_of_faulty hfaulty post

/-- The servers have no fault when none is faulty behind those in front of it. -/
theorem serverFault?_eq_none_iff : serverFault? [] es = none ↔
    ∀ pre e, pre ++ [e] <+: es → ¬ e.IsFaulty (pre.map Entry.name) := by
  constructor
  · intro h pre e hs hf
    obtain ⟨pre, e, hfirst⟩ := exists_firstFaulty hs hf
    rw [hfirst.serverFault?] at h
    cases h
  · intro h
    have hpass : ∀ before d, before ++ [d] <+: es →
        ¬ d.IsFaulty (before.map Entry.name ++ []) := by
      simpa only [List.append_nil] using h
    obtain ⟨seen, -, heq⟩ := serverFault?_append [] hpass
    rwa [List.append_nil] at heq

/-- No server is faulty when every one has a command, and a name of its own. -/
theorem not_isFaulty_iff :
    (∀ pre e, pre ++ [e] <+: es → ¬ e.IsFaulty (pre.map Entry.name)) ↔
      (∀ e ∈ es, Text.trim e.server.command ≠ "") ∧ (es.map Entry.name).Nodup := by
  induction es using List.reverseRecOn with
  | nil => simp
  | append_singleton es d ih =>
    have hsplit : (∀ pre e, pre ++ [e] <+: es ++ [d] → ¬ e.IsFaulty (pre.map Entry.name)) ↔
        (∀ pre e, pre ++ [e] <+: es → ¬ e.IsFaulty (pre.map Entry.name)) ∧
          ¬ d.IsFaulty (es.map Entry.name) := by
      simp only [List.prefix_concat_iff, List.append_singleton_inj]
      constructor
      · exact fun h => ⟨fun pre e hs => h pre e (.inr hs), h es d (.inl ⟨rfl, rfl⟩)⟩
      · rintro ⟨hes, hd⟩ pre e (⟨rfl, rfl⟩ | hs)
        · exact hd
        · exact hes pre e hs
    rw [hsplit, ih, List.map_append, List.nodup_append]
    simp only [Entry.IsFaulty, List.mem_append, List.mem_singleton, List.map_cons, List.map_nil]
    constructor
    · rintro ⟨⟨hcommands, hnames⟩, hd⟩
      obtain ⟨hcommand, hname⟩ := not_or.1 hd
      refine ⟨?_, hnames, List.nodup_singleton _, ?_⟩
      · rintro e (he | rfl)
        · exact hcommands e he
        · exact hcommand
      · rintro name hmem _ rfl rfl
        exact hname hmem
    · rintro ⟨hcommands, hnames, -, hnew⟩
      refine ⟨⟨fun e he => hcommands e (.inl he), hnames⟩, ?_⟩
      rintro (hcommand | hname)
      · exact hcommands d (.inr rfl) hcommand
      · exact hnew _ hname _ rfl rfl

/-! ## Configurations -/

theorem fault?_eq_none_iff_rules (c : Config) : c.fault? = none ↔ c.Rules := by
  have hmodel : Text.isBlankText c.model = false ↔ Text.trim c.model ≠ "" := by
    rw [ne_eq, Text.trim_eq_empty_iff, Bool.not_eq_true]
  have htokens :
      (c.auth.find? fun e => e.2.token.isEmpty) = none ↔ ∀ e ∈ c.auth, e.2.token ≠ "" := by
    simp only [List.find?_eq_none, String.isEmpty_iff, ne_eq]
  rw [fault?_eq_none_iff, serverFault?_eq_none_iff, not_isFaulty_iff, hmodel, htokens]
  constructor
  · rintro ⟨hmodel, ⟨hcommands, hnames⟩, htokens⟩
    exact ⟨hmodel, hcommands, hnames, htokens⟩
  · rintro ⟨hmodel, hcommands, hnames, htokens⟩
    exact ⟨hmodel, ⟨hcommands, hnames⟩, htokens⟩

/-- Behind a model the servers come first: the first faulty one is reported. -/
theorem FirstFaulty.validated {c : Config} (hmodel : Text.trim c.model ≠ "")
    (h : FirstFaulty c.servers pre e) : c.validated = .error (.invalid e.complaint) := by
  have hfault : c.fault? = some e.complaint := by
    rw [fault?, if_neg (mt (Text.trim_eq_empty_iff _).2 hmodel), h.serverFault?, Option.some_or]
  unfold Config.validated
  rw [hfault]

/-- A configuration is valid exactly when it obeys the rules. Where it names a model and some server
is faulty, the first faulty server of the file is reported. -/
theorem validated_exact (c : Config) :
    (∀ d, c.validated = .ok d ↔ c.Rules ∧ d = c) ∧
    (Text.trim c.model ≠ "" →
      (∃ pre e, pre ++ [e] <+: c.servers ∧ e.IsFaulty (pre.map Entry.name)) →
      ∃ pre e, FirstFaulty c.servers pre e ∧ c.validated = .error (.invalid e.complaint)) := by
  constructor
  · intro d
    rw [validated_eq_ok_iff, fault?_eq_none_iff_rules]
  · rintro hmodel ⟨pre, e, hs, hf⟩
    obtain ⟨pre, e, h⟩ := exists_firstFaulty hs hf
    exact ⟨pre, e, h, h.validated hmodel⟩

/-- Three servers. The second has the name of the first and no command, and the third has the name
of the others. -/
def namesakes : Config :=
  { default (fun _ => none) with
    servers := [⟨"files", ⟨"npx", [], [], none⟩, none⟩, ⟨"files", ⟨" ", [], [], none⟩, none⟩,
      ⟨"files", ⟨"uvx", [], [], none⟩, none⟩] }

/-- It is the second that is reported, and its command. -/
theorem namesake_reported : Text.trim namesakes.model ≠ "" ∧
    ∃ pre e, FirstFaulty namesakes.servers pre e ∧
      namesakes.validated = .error (.invalid e.complaint) ∧
      e.complaint = "mcp server 'files' has an empty command" := by
  have hmodel : Text.trim namesakes.model ≠ "" := by decide
  have hfaulty : ∃ pre e, pre ++ [e] <+: namesakes.servers ∧ e.IsFaulty (pre.map Entry.name) :=
    ⟨namesakes.servers.take 2, _, List.prefix_rfl, .inr (by decide)⟩
  obtain ⟨pre, e, hfirst, hreported⟩ := (validated_exact namesakes).2 hmodel hfaulty
  have hrun : namesakes.validated =
      .error (.invalid "mcp server 'files' has an empty command") := by decide +kernel
  refine ⟨hmodel, pre, e, hfirst, hreported, ?_⟩
  rw [hreported] at hrun
  exact Error.invalid.inj (Except.error.inj hrun)

end Config

end Parley
