/-
Requests made of arguments. An argument that a placeholder of the address or of the body names
goes there; every other one goes into the query, in order.
-/
import Parley.Definition
import Parley.Http.Authenticator
import Parley.Http.Query
import Parley.Template
import Parley.Tool.Call

namespace Parley.Definition.Rest

/-- The address with the arguments that it names. -/
def address (b : Rest) (args : Arguments) : Template.Rendered :=
  Template.render b.baseUrl args

/-- The body with the arguments that it names. -/
def content (b : Rest) (args : Arguments) : Template.Rendered :=
  match b.body with
  | some template => Template.render template args
  | none => ⟨"", []⟩

/-- The arguments that neither the address nor the body names. -/
def leftover (b : Rest) (args : Arguments) : Arguments :=
  args.filter fun a => !((b.address args).keys ++ (b.content args).keys).contains a.1

/-- What joins a query to an address. -/
def separator (url : String) : Char :=
  if url.toList.contains '?' then '&' else '?'

/-- An address with a query, unless that is empty. -/
def withQuery (url : String) (query : List (String × String)) : String :=
  if query.isEmpty then url
  else String.ofList (url.toList ++ separator url :: Http.Query.encode query)

/-- The request before credentials are put in; a body that comes out empty is not sent. -/
def plainRequest (b : Rest) (args : Arguments) : Http.Request :=
  let body := (b.content args).text
  { url := withQuery (b.address args).text
      ((b.leftover args).map fun a => (a.1, Template.display a.2))
    method := b.method.name
    headers := b.headers
    body := if body.isEmpty then none else some body }

/-- The request that a call sends. -/
def request (b : Rest) (auth : Option Http.Authenticator) (args : Arguments) : Http.Request :=
  match auth with
  | some auth => auth (b.plainRequest args)
  | none => b.plainRequest args

end Parley.Definition.Rest
