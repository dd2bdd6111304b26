/-
Handles of components of the host. A handle is made by defining the component and is valid until
its deletion, whether or not that succeeds; then it takes no call, and a second deletion does
nothing.
-/
import Parley.World

namespace Parley

/-- A handle of a component. -/
structure Component where
  id : String
  type : String
  valid : Bool
  deriving DecidableEq, Repr

namespace Component

/-- Defines a component. -/
def define (w : World) (type : String) (attrs : Json) : Except Host.Error Component × World :=
  let (id, w) := w.define type attrs
  (id.map fun id => ⟨id, type, true⟩, w)

/-- Calls a method. -/
def callMethod (c : Component) (w : World) (method : String) (args : Json) :
    Except Host.Error Json × World :=
  if c.valid then w.callMethod c.id method args else (.error (.componentInvalid c.id), w)

/-- Has the host stream the answer of a method. -/
def stream (c : Component) (w : World) (method : String) (args : Json) :
    Except Host.Error (List Item) × World :=
  if c.valid then w.stream c.id method args else (.error (.componentInvalid c.id), w)

/-- The answer of a method as a stream of one item, for a host that streams nothing. -/
def streamOnce (c : Component) (w : World) (method : String) (args : Json) :
    Except Host.Error (List Item) × World :=
  let (r, w) := c.callMethod w method args
  (r.map fun v => [.ok v], w)

/-- Deletes the component, unless that was done before. -/
def delete (c : Component) (w : World) : Except Host.Error Unit × Component × World :=
  if c.valid then
    let (r, w) := w.delete c.id
    (r, { c with valid := false }, w)
  else (.ok (), c, w)

/-- Gives up the handle: a component that is still there is deleted, and a failure to do so
ignored. -/
def drop (c : Component) (w : World) : World :=
  if c.valid then (w.delete c.id).2 else w

end Component

end Parley
