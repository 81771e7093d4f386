namespace Reckoner

/-- Why a path that begins with a scheme leads nowhere. -/
inductive SchemeError
  | noStore
  | unknown (scheme : String)
deriving DecidableEq

def SchemeError.message : SchemeError → String
  | noStore => "Missing optional dependency 'fsspec'.  Use pip or conda to install fsspec."
  | unknown scheme => s!"<urlopen error unknown url type: {scheme}>"

/-- The schemes of addresses that are known and have nothing that opens them. -/
def closedSchemes : List String :=
  ["git", "git+ssh", "gopher", "hdl", "imap", "mms", "nfs", "nntp", "prospero", "rsync", "rtsp", "rtspu", "sftp",
    "shttp", "sip", "sips", "snews", "svn", "svn+ssh", "tel", "telnet", "wais", "ws", "wss"]

def isSchemeChar (c : Char) : Bool := c.isAlphanum || c == '+' || c == '-' || c == '.'

/-- Looks at the scheme before the first colon of a path: a letter, and then letters, digits and three marks. Two
slashes after the colon ask for a store. -/
def schemeError? (path : String) : Option SchemeError :=
  let scheme := path.toList.takeWhile isSchemeChar
  let name := String.ofList (scheme.map Char.toLower)
  match scheme, path.toList.drop scheme.length with
  | first :: _, ':' :: rest =>
    if !first.isAlpha then none
    else if closedSchemes.contains name then some (.unknown name)
    else if ['/', '/'].isPrefixOf rest && !path.startsWith "http://" && !path.startsWith "https://" then some .noStore
    else none
  | _, _ => none

end Reckoner
