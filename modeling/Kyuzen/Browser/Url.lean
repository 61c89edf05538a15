import Kyuzen.Base.Text

/-!
URLs of the browser engine (`engine/url.cpp`): parsing, the text of a URL, and the
resolution of a reference against a base.
-/

namespace Kyuzen.Browser

inductive UrlError where
  | tooLong | badScheme | noHost | badPort | badChar | hasUserinfo
  deriving DecidableEq, Repr

structure Url where
  scheme : Text
  host : Text
  port : Nat
  path : Text
  query : Text
  fragment : Text
  deriving DecidableEq

def maxUrlLen : Nat := 2048

namespace Url

variable (u : Url)

def isHttp : Bool := u.scheme = lit "http"

def isHttps : Bool := u.scheme = lit "https"

def isFetchable : Bool := u.isHttp || u.isHttps

def defaultPort : Bool :=
  (u.scheme = lit "http" ∧ u.port = 80) ∨ (u.scheme = lit "https" ∧ u.port = 443)

def portText : Text := if u.defaultPort then [] else 58 :: lit (toString u.port)

def requestTarget : Text :=
  (if u.path = [] then lit "/" else u.path) ++ if u.query = [] then [] else 63 :: u.query

/-- `Url::serialize`, without the fragment. -/
def serialize : Text := u.scheme ++ (lit "://" ++ (u.host ++ (u.portText ++ u.requestTarget)))

end Url

/-- The rejoined segments of `remove_dot_segments`. -/
def dotStep (segs : List Text) (s : Text) : List Text :=
  if s = lit ".." then if segs.length > 1 then segs.dropLast else segs
  else if s ≠ lit "." ∧ ¬ (s = [] ∧ segs ≠ []) then segs ++ [s]
  else segs

def removeDotSegments (path : Text) : Text :=
  let segs := (path.splitOn 47).foldl dotStep []
  if segs = [] then lit "/"
  else
    let out := [47].intercalate segs
    let out := if out ≠ [] ∧ out.getLast? ≠ some 47 ∧ path.getLast? = some 47 then out ++ [47] else out
    if out = [] then lit "/" else out

/-- `parse_authority`: the host and the port, 80 where there is none. -/
def parseAuthority (auth : Text) : Option (Text × Nat) :=
  if auth = [] ∨ 64 ∈ auth ∨ auth.head? = some 91 then none
  else
    let host := auth.takeWhile (· ≠ 58)
    if host = [] then none
    else if 58 ∉ auth then some (lowerText host, 80)
    else
      let ps := auth.drop (host.length + 1)
      if ps = [] ∨ ps.length > 5 then none
      else
        match decimal ps with
        | none => none
        | some v => if v = 0 ∨ v > 65535 then none else some (lowerText host, v)

def badChar (s : Text) : Bool := s.any fun c => c ≤ 32 ∨ c = 127

def parseUrl (s : Text) : Except UrlError Url :=
  if s.length > maxUrlLen then .error .tooLong
  else if badChar s then .error .badChar
  else
    match findText (lit "://") s with
    | none => .error .badScheme
    | some 0 => .error .badScheme
    | some schemeEnd =>
      let scheme := lowerText (s.take schemeEnd)
      if scheme ≠ lit "http" ∧ scheme ≠ lit "https" then .error .badScheme
      else
        let rest := s.drop (schemeEnd + 3)
        let auth := rest.takeWhile fun c => c ≠ 47 ∧ c ≠ 63 ∧ c ≠ 35
        match parseAuthority auth with
        | none =>
          if auth = [] then .error .noHost
          else if 64 ∈ auth then .error .hasUserinfo
          else .error .badPort
        | some (host, port) =>
          let port :=
            if port = 80 ∧ 58 ∉ auth then if scheme = lit "https" then 443 else 80 else port
          let rest := rest.drop auth.length
          let path := if rest.head? = some 47 then rest.takeWhile fun c => c ≠ 63 ∧ c ≠ 35 else []
          let rest := rest.drop path.length
          let query := if rest.head? = some 63 then (rest.drop 1).takeWhile (· ≠ 35) else []
          let rest := if rest.head? = some 63 then rest.drop (query.length + 1) else rest
          let fragment := if rest.head? = some 35 then rest.drop 1 else []
          .ok ⟨scheme, host, port, if path = [] then lit "/" else path, query, fragment⟩

/-- The path of a relative reference, merged with the directory of the base. -/
def mergePath (base rpath : Text) : Text :=
  if rpath.head? = some 47 then removeDotSegments rpath
  else
    let dir := if 47 ∈ base then (base.reverse.dropWhile (· ≠ 47)).reverse else lit "/"
    removeDotSegments (dir ++ rpath)

def resolveUrl (base : Url) (ref : Text) : Except UrlError Url :=
  if ref.length > maxUrlLen then .error .tooLong
  else if badChar ref then .error .badChar
  else if ref = [] then .ok base
  else if ref.head? = some 35 then .ok {base with fragment := ref.drop 1}
  else if (findText (lit "://") ref).isSome then parseUrl ref
  else if (lit "//").isPrefixOf ref then parseUrl (base.scheme ++ (58 :: ref))
  else
    let rfrag := (ref.dropWhile (· ≠ 35)).drop 1
    let ref := ref.takeWhile (· ≠ 35)
    let rquery := (ref.dropWhile (· ≠ 63)).drop 1
    let rpath := ref.takeWhile (· ≠ 63)
    let path := if rpath = [] then base.path else mergePath base.path rpath
    .ok {base with path := path, query := rquery, fragment := rfrag}

end Kyuzen.Browser
