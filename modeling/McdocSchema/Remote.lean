import McdocSchema.Json

/-!
# The remote collection of documents

The addresses at which a host lists the folders of a collection and gives out its files, and the
answers of the host, as a table. An address that the table does not know is not found.
-/

namespace McdocSchema.Remote

/-- An answer of the host. -/
structure Response where
  status : Int := 200
  /-- What the answer lists, for the address of a folder. -/
  listing : Json := .null
  /-- What the answer holds, for the address of a file. -/
  content : List UInt8 := []
  deriving Inhabited

/-- The status of a good answer. -/
def Response.good (r : Response) : Bool := r.status == 200

/-- The answers of a host by address. -/
abbrev Host := List (String × Response)

/-- The answer to a request for an address. -/
def Host.answer (host : Host) (url : String) : Response :=
  (host.lookup url).getD { status := 404 }

def collection : String := "SpyglassMC/vanilla-mcdoc"

/-- What every request says about itself. -/
def headers : Fields String := [("Accept", "application/vnd.github.v3+json")]

/-- A request for an address. -/
structure Request where
  url : String
  headers : Fields String := headers

/-- The address of the listing of a folder. -/
def listingUrl (folder branch : String) : String :=
  "https://api.github.com/repos/" ++ collection ++ "/contents/" ++ folder ++ "?ref=" ++ branch

/-- The address of a file. -/
def fileUrl (path branch : String) : String :=
  "https://raw.githubusercontent.com/" ++ collection ++ "/" ++ branch ++ "/" ++ path

end McdocSchema.Remote
