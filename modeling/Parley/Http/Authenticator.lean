/-
Authenticators put credentials into a request right before it is sent.
-/
import Parley.Http.Request

namespace Parley.Http

/-- A change to a request. -/
abbrev Authenticator := Request → Request

namespace Authenticator

/-- Sets a header. -/
def header (name value : String) : Authenticator := fun r =>
  { r with headers := r.headers.insert name value }

/-- The header that holds credentials. -/
def headerName : String := "Authorization"

/-- Sets the credentials to a token behind the name of its scheme. -/
def bearer (token format : String) : Authenticator :=
  header headerName (format ++ " " ++ token)

/-- The scheme of a token that names none. -/
def defaultFormat : String := "Bearer"

end Authenticator

end Parley.Http
