import RelatedRows.Deploy.Settings
import RelatedRows.Url.Query
import RelatedRows.Url.Split

/-!
# The address of the database

The address is taken from the environment.  The parameter `sslmode` is removed from its query, however it is spelled;
an address without a query stays as it is.  The other parameters are written anew, which half of a pair keeps from
being done.
-/

namespace RelatedRows

inductive AddressError where
  | notSet
  | notEncodable (halves : Text.LoneHalves)
  | malformed (error : UrlError)
deriving DecidableEq, Repr

def AddressError.message : AddressError → String
  | .notSet => "DATABASE_URL is not set."
  | .notEncodable h => h.message
  | .malformed e => e.message

/-- The parameters that an address keeps. -/
def Url.keptParameters (u : Url) : List Url.Parameter :=
  (Url.parameters u.query).filter (·.1 ≠ Text.letters "sslmode")

/-- The address without the parameter `sslmode`. -/
def sanitize (url : List Text.Letter) : Except AddressError (List Text.Letter) := do
  let u ← (Url.split url).mapError .malformed
  if u.query.isEmpty then return url
  else
    let query ← (Url.encodeParameters u.keptParameters).mapError .notEncodable
    return { u with query }.join

def Env.databaseUrl (env : Env) : Except AddressError String :=
  let url := env.text "DATABASE_URL"
  if url = "" then .error .notSet else (sanitize (Text.letters url)).map Text.ofLetters

end RelatedRows
