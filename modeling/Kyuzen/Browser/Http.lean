import Kyuzen.Base.Fields
import Kyuzen.Browser.Url

/-!
The HTTP client of the browser engine (`engine/http.cpp`): the response parser, and
`fetch` with its redirects over a transport that its caller has chosen. The network is
the sequence of what each connection attempt meets.
-/

namespace Kyuzen.Browser

inductive FetchError where
  | unsupportedScheme | badUrl | dns | conn | tls | timeout | closed | badResponse | tooLarge
  | tooManyRedirects
  deriving DecidableEq, Repr

structure Header where
  name : Text
  value : Text
  deriving DecidableEq

structure Response where
  status : Nat
  reason : Text
  headers : List Header
  body : Text
  finalUrl : Text
  deriving DecidableEq

def maxHeaderBytes : Nat := 32 * 1024
def maxHeaders : Nat := 64
def maxBodyBytes : Nat := 1024 * 1024
def maxRedirects : Nat := 10

def Response.get (r : Response) (name : Text) : Option Text :=
  (r.headers.find? fun h => lowerText h.name = lowerText name).map Header.value

/-! ## The response parser -/

def stripCr (s : Text) : Text := if s.getLast? = some 13 then s.dropLast else s

/-- The lines of `split_lines`, at most `fuel` of them. -/
def splitLines : Nat → Text → List Text
  | 0, _ => []
  | fuel + 1, s =>
    if s = [] then []
    else
      let (line, rest) := cutField 10 s
      stripCr line :: splitLines fuel rest

def hexValue (c : UInt8) : Option Nat :=
  if 48 ≤ c ∧ c ≤ 57 then some (c.toNat - 48)
  else if 97 ≤ c ∧ c ≤ 102 then some (c.toNat - 97 + 10)
  else if 65 ≤ c ∧ c ≤ 70 then some (c.toNat - 65 + 10)
  else none

/-- The size line of a chunk, with the cap on every prefix. -/
def chunkSize : Text → Nat → Option Nat
  | [], n => some n
  | c :: s, n =>
    match hexValue c with
    | none => none
    | some v => if n * 16 + v > maxBodyBytes then none else chunkSize s (n * 16 + v)

/-- `dechunk`: the rest of the text, and the body so far. -/
def dechunk : Nat → Text → Text → Option Text
  | 0, _, _ => none
  | fuel + 1, raw, body =>
    if 10 ∉ raw then none
    else
      let (line, rest) := cutField 10 raw
      let szline := trimText ((stripCr line).takeWhile (· ≠ 59))
      if szline = [] then none
      else
        match chunkSize szline 0 with
        | none => none
        | some 0 => some body
        | some n =>
          if body.length + n > maxBodyBytes ∨ n > rest.length then none
          else
            let after := rest.drop n
            if (lit "\r\n").isPrefixOf after then
              dechunk fuel (after.drop 2) (body ++ rest.take n)
            else if after.head? = some 10 then
              dechunk fuel (after.drop 1) (body ++ rest.take n)
            else none

def parseStatus (sl : Text) : Option (Nat × Text) :=
  if (lit "HTTP/").isPrefixOf sl = false then none
  else if 32 ∉ sl then none
  else
    let rest := (sl.dropWhile (· ≠ 32)).drop 1
    if rest.length < 3 then none
    else
      match decimal (rest.take 3) with
      | none => none
      | some code =>
        let reason := rest.drop 3
        some (code, if reason.head? = some 32 then reason.drop 1 else reason)

/-- The header lines, with continuation lines added to the value before. -/
def parseHeaders : List Text → List Header → Except FetchError (List Header)
  | [], hs => .ok hs
  | ln :: lines, hs =>
    if ln.head? = some 32 ∨ ln.head? = some 9 then
      match hs.getLast? with
      | none => .error .badResponse
      | some h =>
        let cont := trimText ln
        if cont ≠ [] ∧ h.value.length + cont.length + 1 ≤ maxHeaderBytes then
          parseHeaders lines (hs.dropLast ++ [{h with value := h.value ++ (32 :: cont)}])
        else parseHeaders lines hs
    else
      let name := ln.takeWhile (· ≠ 58)
      if 58 ∉ ln ∨ name = [] then .error .badResponse
      else if hs.length ≥ maxHeaders then .error .tooLarge
      else parseHeaders lines (hs ++ [⟨lowerText name, trimText (ln.drop (name.length + 1))⟩])

/-- `Content-Length`, with the cap on every prefix. -/
def contentLength : Text → Nat → Except FetchError Nat
  | [], n => .ok n
  | c :: s, n =>
    if ¬ (48 ≤ c ∧ c ≤ 57) then .error .badResponse
    else if n * 10 + (c.toNat - 48) > maxBodyBytes then .error .tooLarge
    else contentLength s (n * 10 + (c.toNat - 48))

def parseBody (r : Response) (rest : Text) : Except FetchError Text :=
  if (r.get (lit "transfer-encoding")).map lowerText = some (lit "chunked") then
    match dechunk (rest.length + 1) rest [] with
    | none => .error .badResponse
    | some body => .ok body
  else
    match r.get (lit "content-length") with
    | some cl =>
      if trimText cl = [] then .error .badResponse
      else
        match contentLength (trimText cl) 0 with
        | .error e => .error e
        | .ok n => if n > rest.length then .error .badResponse else .ok (rest.take n)
    | none => if rest.length > maxBodyBytes then .error .tooLarge else .ok rest

def headerEnd (raw : Text) : Option (Nat × Nat) :=
  match findText (lit "\r\n\r\n") raw with
  | some i => some (i, 4)
  | none => (findText (lit "\n\n") raw).map fun i => (i, 2)

def parseResponse (raw : Text) : Except FetchError Response :=
  match headerEnd raw with
  | none => .error .closed
  | some (hend, len) =>
    if hend > maxHeaderBytes then .error .tooLarge
    else
      let lines := splitLines hend (raw.take hend)
      if lines.any (fun l => 0 ∈ l) then .error .badResponse
      else
        match lines with
        | [] => .error .badResponse
        | sl :: lines =>
          match parseStatus sl with
          | none => .error .badResponse
          | some (status, reason) =>
            match parseHeaders lines [] with
            | .error e => .error e
            | .ok headers =>
              let r : Response := ⟨status, reason, headers, [], []⟩
              match parseBody r (raw.drop (hend + len)) with
              | .error e => .error e
              | .ok body => .ok {r with body := body}

def isRedirect (status : Nat) : Bool :=
  status = 301 ∨ status = 302 ∨ status = 303 ∨ status = 307 ∨ status = 308

/-! ## The transport -/

/-- `KyuzenTransport` sends the bytes as they are, `TlsTransport` encrypts them. -/
inductive Via where
  | plain | tls
  deriving DecidableEq, Repr

/-- What a connection attempt meets: the error of `open`, whether the request could be
written, the pieces that `read` returns, and whether the peer closes after them. -/
structure Exchange where
  openError : Option FetchError
  writeOk : Bool
  reads : List Text
  peerClosed : Bool

abbrev Net := Nat → Exchange

/-- The read loop of `fetch`. -/
def readAll (x : Exchange) : Except FetchError Text :=
  let rec loop : List Text → Text → Except FetchError Text
    | [], raw => if x.peerClosed then .ok raw else .error .timeout
    | buf :: reads, raw =>
      if raw.length + buf.length > maxHeaderBytes + maxBodyBytes then .error .tooLarge
      else loop reads (raw ++ buf)
  loop x.reads []

def requestText (u : Url) : Text :=
  lit "GET " ++ (u.requestTarget ++ (lit " HTTP/1.1\r\nHost: " ++
    (u.host ++ (u.portText ++ lit "\r\nConnection: close\r\n\r\n"))))

/-- One pass of `fetch` over an open connection: the parsed answer to the request. -/
def exchange (cur : Url) (x : Exchange) : Except FetchError Response :=
  if x.writeOk = false then .error .conn
  else
    match readAll x with
    | .error e => .error e
    | .ok raw =>
      match parseResponse raw with
      | .error e => .error e
      | .ok r => .ok {r with finalUrl := cur.serialize}

/-- What a redirect says: there is nothing to follow, the target is no good, or where to
go on. -/
inductive Redirect where
  | deliver
  | refused (e : FetchError)
  | follow (u : Url)

def redirectOf (cur : Url) (r : Response) : Redirect :=
  match r.get (lit "location") with
  | none => .deliver
  | some loc =>
    if loc = [] then .deliver
    else
      match resolveUrl cur loc with
      | .error _ => .refused .badUrl
      | .ok next => if next.isFetchable then .follow next else .refused .unsupportedScheme

/-- A request that `fetch` wrote: the number of its connection, the URL of the call, how
many redirects came before it, the transport, and the URL it is for. -/
structure Request where
  n : Nat
  start : Url
  redir : Nat
  via : Via
  url : Url
  text : Text

structure Delivered where
  via : Via
  response : Response

structure Session where
  n : Nat
  sent : List Request
  got : List Delivered

def Session.begin : Session := ⟨0, [], []⟩

/-- The loop of `fetch`, with `redir + left` redirects allowed in all. -/
def fetchLoop (net : Net) (t : Via) (start : Url) :
    Nat → Nat → Url → Session → Except FetchError Response × Session
  | left, redir, cur, s =>
    let x := net s.n
    match x.openError with
    | some e => (.error e, {s with n := s.n + 1})
    | none =>
      let s := {s with
        n := s.n + 1, sent := s.sent ++ [⟨s.n, start, redir, t, cur, requestText cur⟩]}
      match exchange cur x with
      | .error e => (.error e, s)
      | .ok r =>
        let delivered := {s with got := s.got ++ [⟨t, r⟩]}
        if isRedirect r.status = false then (.ok r, delivered)
        else
          match left with
          | 0 => (.error .tooManyRedirects, s)
          | left + 1 =>
            match redirectOf cur r with
            | .deliver => (.ok r, delivered)
            | .refused e => (.error e, s)
            | .follow next => fetchLoop net t start left (redir + 1) next s

def fetch (net : Net) (t : Via) (url : Url) (s : Session) : Except FetchError Response × Session :=
  if url.isFetchable = false then (.error .unsupportedScheme, s)
  else fetchLoop net t url maxRedirects 0 url s

/-- Where the answer to a request for `cur` sends `fetch`. -/
def redirectTarget (cur : Url) (x : Exchange) : Option Url :=
  match exchange cur x with
  | .error _ => none
  | .ok r =>
    if isRedirect r.status = false then none
    else
      match redirectOf cur r with
      | .follow next => some next
      | _ => none

end Kyuzen.Browser
