/-
Agents made as a configuration says.
-/
import Parley.Agent
import Parley.Config

namespace Parley

namespace Config

/-- Whether the model of a configuration is one that wants a key; one that is not known may. -/
def wantsKey (c : Config) : Bool :=
  match Model.find c.model with
  | .ok m => m.required.contains .apiKey
  | .error _ => true

/-- How to make the agent of a configuration; its key goes to models only that want one. -/
def options (c : Config) : Agent.Options where
  model := c.model
  attrs := ⟨c.device, none, none, if c.wantsKey then c.apiKey else none⟩
  systemMessage := c.systemMessage

/-- What the turns of the agent tell the model. -/
def runOptions (c : Config) : Agent.RunOptions :=
  ⟨c.enableReasoning, c.ignoreReasoning⟩

/-- The authenticator for the requests of a preset, if there are credentials. -/
def authenticator (c : Config) (preset : String) : Option Http.Authenticator :=
  (c.auth.get? preset).map fun a => .bearer a.token a.format

end Config

namespace Agent

/-- Adds the tools of presets one after the other, up to the first that cannot be used. -/
def addPresets (c : Config) (fs : Files) : List String → Agent → Except Error Unit × Agent
  | [], a => (.ok (), a)
  | p :: ps, a =>
    match a.addPreset fs c.presetDir p (c.authenticator p) with
    | (.error e, a) => (.error e, a)
    | (.ok _, a) => addPresets c fs ps a

/-- Adds the tools of servers one after the other, up to the first that cannot be used. -/
def addServers : List Config.Entry → Agent → World → Except Error Unit × Agent × World
  | [], a, w => (.ok (), a, w)
  | e :: es, a, w =>
    match a.addServer w e.server e.tools with
    | (.error e, a, w) => (.error e, a, w)
    | (.ok _, a, w) => addServers es a w

/-- Adds the tools of all presets and servers of a configuration, and counts the new ones. -/
def addConfigured (a : Agent) (w : World) (fs : Files) (c : Config) :
    Except Error Nat × Agent × World :=
  let before := a.tools.size
  match addPresets c fs c.presets a with
  | (.error e, a) => (.error e, a, w)
  | (.ok (), a) =>
    match addServers c.servers a w with
    | (.error e, a, w) => (.error e, a, w)
    | (.ok (), a, w) => (.ok (a.tools.size - before), a, w)

/-- Makes the agent of a configuration with all its tools. When a tool cannot be used, the agent
is deleted again, and it does not matter whether that succeeds. -/
def ofConfig (w : World) (fs : Files) (c : Config) : Except Error Agent × World :=
  match define w c.options with
  | (.error e, w) => (.error e, w)
  | (.ok a, w) =>
    match a.addConfigured w fs c with
    | (.ok _, a, w) => (.ok a, w)
    | (.error e, a, w) =>
      let (_, a, w) := a.delete w
      (.error e, a.drop w)

end Agent

end Parley
