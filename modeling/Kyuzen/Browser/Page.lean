import Kyuzen.Browser.Http

/-!
Loading a page (`page.cpp`): the document, its stylesheets and its images are fetched one
after the other. The HTML parser, the image decoder and the layout engine are
parameters: a page is any document tree.
-/

namespace Kyuzen.Browser

open List

/-- `dom::Node`; text nodes have no tag. -/
inductive Node where
  | mk (tag : Option Text) (attrs : List Header) (children : List Node)

namespace Node

def tag : Node → Option Text
  | mk tag _ _ => tag

def attrs : Node → List Header
  | mk _ attrs _ => attrs

def getAttr (node : Node) (name : Text) : Option Text :=
  (node.attrs.find? fun a => a.name = name).map Header.value

end Node

structure Document where
  styleHrefs : List Text
  root : Node

/-- What is not part of the network code: the parser, the decoder with the size of an
image, and whether a layout could be built. -/
structure Engine where
  parse : Text → Document
  decode : Text → Option (Nat × Nat)
  layout : Document → Bool

def pageMaxImages : Nat := 16
def pageMaxStylesheets : Nat := 8
def pageCssFetchCap : Nat := 64 * 1024
def pageImgFetchCap : Nat := 512 * 1024

def transportFor (u : Url) : Via := if u.isHttps then .tls else .plain

def contentIsHtml (r : Response) : Bool :=
  match r.get (lit "content-type") with
  | none => true
  | some ct =>
    let mime := (lowerText ct).takeWhile (· ≠ 59)
    (lit "text/").isPrefixOf (mime.reverse.dropWhile (· = 32)).reverse

mutual

/-- The nodes of a tree in the order of the stack: the last child first. -/
def Node.visit : Node → List Node
  | .mk tag attrs children => .mk tag attrs children :: Node.visitAll children

def Node.visitAll : List Node → List Node
  | [] => []
  | c :: cs => Node.visitAll cs ++ c.visit

end

def imageSource (base : Url) (node : Node) : Option Text :=
  if node.tag ≠ some (lit "img") then none
  else
    match node.getAttr (lit "src") with
    | none => none
    | some src =>
      if src = [] then none
      else
        match resolveUrl base src with
        | .error _ => none
        | .ok u => some u.serialize

/-- The sources to fetch: each once, 16 at most. -/
def imageSources (base : Url) (nodes : List Node) : List Text :=
  nodes.foldl (fun srcs node =>
    match imageSource base node with
    | none => srcs
    | some src => if src ∈ srcs ∨ srcs.length ≥ pageMaxImages then srcs else srcs ++ [src]) []

/-- `Page::fetch_one`: the images so far, by source. -/
def fetchOne (engine : Engine) (net : Net) (absSrc : Text) (images : List Text) (s : Session) :
    List Text × Session :=
  if absSrc ∈ images then (images, s)
  else
    match parseUrl absSrc with
    | .error _ => (images, s)
    | .ok u =>
      if u.isFetchable = false then (images, s)
      else
        match fetch net (transportFor u) u s with
        | (.error _, s) => (images, s)
        | (.ok r, s) =>
          if r.body = [] ∨ r.body.length > pageImgFetchCap then (images, s)
          else
            match engine.decode r.body with
            | none => (images, s)
            | some (w, h) =>
              if w = 0 ∨ h = 0 ∨ w * h > 2048 * 2048 then (images, s)
              else (images ++ [absSrc], s)

/-- The image loop of `Page::load`. -/
def fetchImages (engine : Engine) (net : Net) : List Text → List Text → Session → Session
  | [], _, s => s
  | src :: srcs, images, s =>
    let r := fetchOne engine net src images s
    fetchImages engine net srcs r.1 r.2

/-- The stylesheet loop of `Page::load`, with the number fetched so far. -/
def fetchStylesheets (net : Net) (base : Url) : List Text → Nat → Session → Session
  | [], _, s => s
  | href :: hrefs, fetched, s =>
    if fetched ≥ pageMaxStylesheets then s
    else
      match resolveUrl base href with
      | .error _ => fetchStylesheets net base hrefs fetched s
      | .ok u =>
        if u.isFetchable = false then fetchStylesheets net base hrefs fetched s
        else
          match fetch net (transportFor u) u s with
          | (.error _, s) => fetchStylesheets net base hrefs fetched s
          | (.ok r, s) =>
            if r.body = [] ∨ r.body.length > pageCssFetchCap then
              fetchStylesheets net base hrefs fetched s
            else fetchStylesheets net base hrefs (fetched + 1) s

def load (engine : Engine) (net : Net) (url : Url) (s : Session) : Option FetchError × Session :=
  match fetch net (transportFor url) url s with
  | (.error e, s) => (some e, s)
  | (.ok r, s) =>
    if contentIsHtml r = false then (some .badResponse, s)
    else
      let doc := engine.parse r.body
      let base := match parseUrl r.finalUrl with
        | .ok u => u
        | .error _ => url
      let s := fetchStylesheets net base doc.styleHrefs 0 s
      let s := fetchImages engine net (imageSources base doc.root.visit) [] s
      (if engine.layout doc then none else some .badResponse, s)

/-! ## What is encrypted -/

def isHttpsText (s : Text) : Bool := (lit "https://").isPrefixOf s

/-- Requests for https URLs are written to TLS, and responses with an https URL are read
from TLS. -/
structure Encrypted (sent : List Request) (got : List Delivered) : Prop where
  sent : ∀ q ∈ sent, q.url.isHttps = true → q.via = .tls
  got : ∀ d ∈ got, isHttpsText d.response.finalUrl = true → d.via = .tls

/-- No fetch that started at an http URL is sent on to an https URL where the connection
opens. -/
def NoUpgrade (net : Net) (sent : List Request) : Prop :=
  ∀ q ∈ sent, q.start.isHttps = false → q.redir < maxRedirects →
    ∀ next, redirectTarget q.url (net q.n) = some next → next.isHttps = true →
      (net (q.n + 1)).openError ≠ none

theorem isHttpsText_serialize {u : Url} (h : u.isFetchable = true) :
    isHttpsText u.serialize = u.isHttps := by
  rw [Url.isFetchable, Url.isHttp, Url.isHttps, Bool.or_eq_true] at h
  rw [isHttpsText, Url.isHttps, Url.serialize]
  rcases h with h | h
  · rw [of_decide_eq_true h]
    rfl
  · rw [of_decide_eq_true h]
    rfl

def requests (net : Net) (t : Via) (start : Url) : Nat → Nat → Url → Nat → List Request
  | left, redir, cur, n =>
    if (net n).openError ≠ none then []
    else
      ⟨n, start, redir, t, cur, requestText cur⟩ ::
        match left, redirectTarget cur (net n) with
        | left + 1, some next => requests net t start left (redir + 1) next (n + 1)
        | _, _ => []

section Fetch

variable {left n : Nat} {s : Session}

variable {net : Net} {t : Via} {start : Url} {redir : Nat} {cur next : Url}

def Session.send (s : Session) (q : Request) : Session :=
  {s with n := s.n + 1, sent := s.sent ++ [q]}

variable {x : Exchange}

theorem finalUrl_exchange {r : Response} (h : exchange cur x = .ok r) :
    r.finalUrl = cur.serialize := by
  revert h
  fun_cases exchange cur x <;> rintro ⟨⟩
  rfl

theorem isFetchable_redirectTarget (h : redirectTarget cur x = some next) :
    next.isFetchable = true := by
  revert h
  fun_cases redirectTarget cur x <;> rintro ⟨⟩
  next r _ _ hfollow =>
    revert hfollow
    fun_cases redirectOf cur r <;> rintro ⟨⟩
    next hfetch => exact hfetch

theorem requests_closed (h : (net n).openError ≠ none) :
    requests net t start left redir cur n = [] := by
  unfold requests
  rw [if_pos h]

theorem requests_follow (h : (net n).openError = none)
    (hnext : redirectTarget cur (net n) = some next) :
    requests net t start (left + 1) redir cur n = ⟨n, start, redir, t, cur, requestText cur⟩ ::
        requests net t start left (redir + 1) next (n + 1) := by
  rw [requests.eq_def]
  dsimp only
  rw [if_neg (not_not.mpr h), hnext]

theorem requests_last (h : (net n).openError = none)
    (hlast : left = 0 ∨ redirectTarget cur (net n) = none) :
    requests net t start left redir cur n = [⟨n, start, redir, t, cur, requestText cur⟩] := by
  unfold requests
  rw [if_neg (not_not.mpr h)]
  rcases hlast with rfl | hnone
  · rfl
  · rw [hnone]
    cases left <;> rfl

theorem fetchLoop_closed (h : (net s.n).openError ≠ none) :
    (fetchLoop net t start left redir cur s).2 = {s with n := s.n + 1} := by
  unfold fetchLoop
  dsimp only
  split
  · rfl
  · contradiction

theorem fetchLoop_follow (h : (net s.n).openError = none)
    (hnext : redirectTarget cur (net s.n) = some next) :
    fetchLoop net t start (left + 1) redir cur s = fetchLoop net t start left (redir + 1) next
        (s.send ⟨s.n, start, redir, t, cur, requestText cur⟩) := by
  revert hnext
  fun_cases redirectTarget cur (net s.n) <;> rintro ⟨⟩
  next r hr hredirect hu =>
    rw [fetchLoop]
    dsimp only
    rw [h]
    dsimp only
    rw [hr]
    dsimp only
    rw [if_neg hredirect, hu]
    rfl

/-- In its last pass the loop hands out the answer or nothing. -/
theorem fetchLoop_last (h : (net s.n).openError = none)
    (hlast : left = 0 ∨ redirectTarget cur (net s.n) = none) :
    (fetchLoop net t start left redir cur s).2.sent =
        s.sent ++ [⟨s.n, start, redir, t, cur, requestText cur⟩] ∧
      ∃ got, (fetchLoop net t start left redir cur s).2.got = s.got ++ got ∧
        ∀ d ∈ got, d.via = t ∧ d.response.finalUrl = cur.serialize := by
  have hone : ∀ r, exchange cur (net s.n) = .ok r →
      ∀ d ∈ [(⟨t, r⟩ : Delivered)], d.via = t ∧ d.response.finalUrl = cur.serialize := by
    intro r hr d hd
    rw [mem_singleton.mp hd]
    exact ⟨rfl, finalUrl_exchange hr⟩
  unfold fetchLoop
  dsimp only
  rw [h]
  dsimp only
  split
  · exact ⟨rfl, [], (append_nil _).symm, nofun⟩
  rename_i r hr
  split
  · exact ⟨rfl, [⟨t, r⟩], rfl, hone r hr⟩
  rename_i hredirect
  split
  · exact ⟨rfl, [], (append_nil _).symm, nofun⟩
  split
  · exact ⟨rfl, [⟨t, r⟩], rfl, hone r hr⟩
  · exact ⟨rfl, [], (append_nil _).symm, nofun⟩
  rename_i hfollow
  rw [redirectTarget, hr] at hlast
  dsimp only at hlast
  rw [if_neg hredirect, hfollow] at hlast
  exact hlast.elim nofun nofun

/-- Induction along the passes of a fetch: no connection, the last pass, or one that a
redirect follows. -/
theorem pass_induction (net : Net) {motive : Nat → Nat → Url → Nat → Prop}
    (closed : ∀ left redir cur n, (net n).openError ≠ none → motive left redir cur n)
    (last : ∀ left redir cur n, (net n).openError = none →
      (left = 0 ∨ redirectTarget cur (net n) = none) → motive left redir cur n)
    (follow : ∀ left redir cur next n, (net n).openError = none →
      redirectTarget cur (net n) = some next → motive left (redir + 1) next (n + 1) →
      motive (left + 1) redir cur n)
    (left redir : Nat) (cur : Url) (n : Nat) : motive left redir cur n := by
  induction left generalizing redir cur n with
  | zero =>
    by_cases h : (net n).openError = none
    · exact last 0 redir cur n h (Or.inl rfl)
    · exact closed 0 redir cur n h
  | succ left ih =>
    by_cases h : (net n).openError = none
    · cases hnext : redirectTarget cur (net n) with
      | none => exact last (left + 1) redir cur n h (Or.inr hnext)
      | some next => exact follow left redir cur next n h hnext (ih (redir + 1) next (n + 1))
    · exact closed (left + 1) redir cur n h

/-- The log of a fetch from a pass on: the requests are written, and at most an answer to
one of them is handed out. -/
def Logged (net : Net) (t : Via) (start : Url) (left redir : Nat) (cur : Url) (s : Session) : Prop :=
  (fetchLoop net t start left redir cur s).2.sent =
      s.sent ++ requests net t start left redir cur s.n ∧
    ∃ got, (fetchLoop net t start left redir cur s).2.got = s.got ++ got ∧
      ∀ d ∈ got, d.via = t ∧ ∃ q ∈ requests net t start left redir cur s.n,
        d.response.finalUrl = q.url.serialize

theorem logged_closed (h : (net s.n).openError ≠ none) : Logged net t start left redir cur s := by
  rw [Logged, fetchLoop_closed h, requests_closed h]
  exact ⟨(append_nil _).symm, [], (append_nil _).symm, nofun⟩

theorem logged_last (h : (net s.n).openError = none)
    (hlast : left = 0 ∨ redirectTarget cur (net s.n) = none) :
    Logged net t start left redir cur s := by
  rw [Logged, requests_last h hlast]
  obtain ⟨hsent, got, hgot, hall⟩ := fetchLoop_last h hlast
  exact ⟨hsent, got, hgot, fun d hd => ⟨(hall d hd).1, _, (.head _), (hall d hd).2⟩⟩

theorem logged (left redir : Nat) (cur : Url) (s : Session) :
    Logged net t start left redir cur s := by
  refine pass_induction net (motive := fun left redir cur n => ∀ s : Session, s.n = n →
    Logged net t start left redir cur s) ?closed ?last ?follow left redir cur s.n s rfl
  case closed =>
    rintro left redir cur n h s rfl
    exact logged_closed h
  case last =>
    rintro left redir cur n h hlast s rfl
    exact logged_last h hlast
  case follow =>
    rintro left redir cur next n h hnext ih s rfl
    rw [Logged, fetchLoop_follow h hnext, requests_follow h hnext]
    obtain ⟨hsent, got, hgot, hall⟩ := ih (s.send ⟨s.n, start, redir, t, cur, requestText cur⟩) rfl
    refine ⟨?_, got, hgot, ?_⟩
    · rw [hsent]
      exact append_assoc _ _ _
    · intro d hd
      obtain ⟨hvia, q, hq, hurl⟩ := hall d hd
      exact ⟨hvia, q, mem_cons_of_mem _ hq, hurl⟩

/-- Every request of a fetch goes over its one transport, for a URL that can be fetched. -/
theorem requests_spec (left redir : Nat) (cur : Url) (n : Nat) (hcur : cur.isFetchable = true) :
    ∀ q ∈ requests net t start left redir cur n,
      q.via = t ∧ q.start = start ∧ q.url.isFetchable = true := by
  revert hcur
  apply pass_induction net (motive := fun left redir cur n => cur.isFetchable = true →
    ∀ q ∈ requests net t start left redir cur n,
      q.via = t ∧ q.start = start ∧ q.url.isFetchable = true)
  case closed =>
    intro left redir cur n h _
    rw [requests_closed h]
    exact nofun
  case last =>
    intro left redir cur n h hlast hcur
    rw [requests_last h hlast]
    exact forall_mem_singleton.mpr ⟨rfl, rfl, hcur⟩
  case follow =>
    intro left redir cur next n h hnext ih hcur
    rw [requests_follow h hnext]
    exact forall_mem_cons.mpr ⟨⟨rfl, rfl, hcur⟩, ih (isFetchable_redirectTarget hnext)⟩

/-- A fetch over the plain transport asks for no https URL exactly when no redirect leads it
to one. -/
theorem requests_plain_iff (hstart : start.isHttps = false) (left redir : Nat) (cur : Url) (n : Nat)
    (hbudget : redir + left = maxRedirects) (hcur : cur.isHttps = false) :
    (∀ q ∈ requests net t start left redir cur n, q.url.isHttps = false) ↔
      NoUpgrade net (requests net t start left redir cur n) := by
  revert hbudget hcur
  apply pass_induction net (motive := fun left redir cur n =>
    redir + left = maxRedirects → cur.isHttps = false →
    ((∀ q ∈ requests net t start left redir cur n, q.url.isHttps = false) ↔
      NoUpgrade net (requests net t start left redir cur n)))
  case closed =>
    intro left redir cur n h _ _
    rw [requests_closed h]
    exact iff_of_true nofun nofun
  case last =>
    intro left redir cur n h hlast hbudget hcur
    rw [requests_last h hlast, NoUpgrade, forall_mem_singleton, forall_mem_singleton]
    apply iff_of_true hcur
    intro _ hredir next hnext _
    rcases hlast with rfl | hnone
    · exact absurd hbudget (hredir.ne)
    · rw [hnone] at hnext
      exact nomatch hnext
  case follow =>
    intro left redir cur next n h hnext ih hbudget hcur
    have hlt : redir < maxRedirects := by omega
    rw [requests_follow h hnext, NoUpgrade, forall_mem_cons, forall_mem_cons]
    cases hs : next.isHttps with
    | false =>
      -- The redirect stays on http, so only the rest of the fetch decides.
      apply Iff.trans (and_iff_right hcur)
      apply Iff.trans (ih (by omega) hs)
      apply (and_iff_right _).symm
      intro _ _ u hu hhttps
      rw [hnext] at hu
      rw [← Option.some.inj hu, hs] at hhttps
      exact nomatch hhttps
    | true =>
      -- The redirect leads to https: nothing may be written there.
      by_cases hopen : (net (n + 1)).openError = none
      · apply iff_of_false
        · intro hall
          rw [requests.eq_def] at hall
          dsimp only at hall
          rw [if_neg (not_not.mpr hopen)] at hall
          have hfalse := hall.2 _ (.head _)
          rw [hs] at hfalse
          exact nomatch hfalse
        · intro hno
          exact hno.1 hstart hlt next hnext hs hopen
      · rw [requests_closed hopen]
        apply iff_of_true
        · exact ⟨hcur, nofun⟩
        · exact ⟨fun _ _ _ _ _ => hopen, nofun⟩

end Fetch

/-! ## Whole loads -/

/-- So far the log is encrypted exactly when no redirect upgraded a plain fetch. -/
def Balanced (net : Net) (s : Session) : Prop :=
  Encrypted s.sent s.got ↔ NoUpgrade net s.sent

section Balanced

variable {s : Session} {engine : Engine} {net : Net} {sent sent' : List Request}

theorem encrypted_append {got got' : List Delivered} :
    Encrypted (sent ++ sent') (got ++ got') ↔ Encrypted sent got ∧ Encrypted sent' got' := by
  constructor
  · intro h
    have hs := forall_mem_append.mp h.sent
    have hg := forall_mem_append.mp h.got
    exact ⟨⟨hs.1, hg.1⟩, ⟨hs.2, hg.2⟩⟩
  · intro h
    exact ⟨forall_mem_append.mpr ⟨h.1.sent, h.2.sent⟩, forall_mem_append.mpr ⟨h.1.got, h.2.got⟩⟩

theorem noUpgrade_append :
    NoUpgrade net (sent ++ sent') ↔ NoUpgrade net sent ∧ NoUpgrade net sent' :=
  forall_mem_append

theorem encrypted_fetch_iff {u : Url} (hu : u.isFetchable = true) (n : Nat) {got : List Delivered}
    (hgot : ∀ d ∈ got, d.via = transportFor u ∧
      ∃ q ∈ requests net (transportFor u) u maxRedirects 0 u n,
        d.response.finalUrl = q.url.serialize) :
    Encrypted (requests net (transportFor u) u maxRedirects 0 u n) got ↔
      NoUpgrade net (requests net (transportFor u) u maxRedirects 0 u n) := by
  have hspec : ∀ q ∈ requests net (transportFor u) u maxRedirects 0 u n,
      q.via = transportFor u ∧ q.start = u ∧ q.url.isFetchable = true :=
    requests_spec maxRedirects 0 u n hu
  cases hs : u.isHttps with
  | true =>
    have ht : transportFor u = .tls := if_pos hs
    apply iff_of_true
    · constructor
      · intro q hq _
        exact (hspec q hq).1.trans ht
      · intro d hd _
        exact (hgot d hd).1.trans ht
    · intro q hq hstart
      rw [(hspec q hq).2.1, hs] at hstart
      exact nomatch hstart
  | false =>
    have ht : transportFor u = .plain := if_neg (by rw [hs]; exact Bool.false_ne_true)
    rw [← requests_plain_iff hs maxRedirects 0 u n (zero_add _) hs]
    constructor
    · intro h q hq
      apply Bool.eq_false_iff.mpr
      intro hhttps
      have htls := h.sent q hq hhttps
      rw [(hspec q hq).1, ht] at htls
      exact nomatch htls
    · intro h
      constructor
      · intro q hq hhttps
        rw [h q hq] at hhttps
        exact nomatch hhttps
      · intro d hd hhttps
        obtain ⟨_, q, hq, hurl⟩ := hgot d hd
        rw [hurl, isHttpsText_serialize (hspec q hq).2.2, h q hq] at hhttps
        exact nomatch hhttps

section
variable (h : Balanced net s)
include h

theorem balanced_fetch {u : Url} : Balanced net (fetch net (transportFor u) u s).2 := by
  rw [fetch]
  split
  · exact h
  rename_i hu
  have hlog : Logged net (transportFor u) u maxRedirects 0 u s := logged maxRedirects 0 u s
  obtain ⟨hsent, got, hgot, hall⟩ := hlog
  rw [Balanced, hsent, hgot, encrypted_append, noUpgrade_append]
  exact and_congr h (encrypted_fetch_iff (Bool.eq_true_of_not_eq_false hu) s.n hall)

theorem balanced_fetchOne {absSrc : Text} {images : List Text} :
    Balanced net (fetchOne engine net absSrc images s).2 := by
  rw [fetchOne]
  split
  · exact h
  split
  · exact h
  rename_i u _
  split
  · exact h
  have hf : Balanced net (fetch net (transportFor u) u s).2 := balanced_fetch h
  split
  all_goals
    rename_i heq
    rw [heq] at hf
  · exact hf
  · repeat' split
    all_goals exact hf

theorem balanced_fetchImages {srcs images : List Text} :
    Balanced net (fetchImages engine net srcs images s) := by
  induction srcs generalizing images s with
  | nil => exact h
  | cons src srcs ih =>
    rw [fetchImages]
    exact ih (balanced_fetchOne h)

theorem balanced_fetchStylesheets {base : Url} {hrefs : List Text} {fetched : Nat} : Balanced net
    (fetchStylesheets net base hrefs fetched s) := by
  induction hrefs generalizing fetched s with
  | nil => exact h
  | cons href hrefs ih =>
    rw [fetchStylesheets]
    split
    · exact h
    split
    · exact ih h
    rename_i u _
    split
    · exact ih h
    have hf : Balanced net (fetch net (transportFor u) u s).2 := balanced_fetch h
    split
    next heq =>
      rw [heq] at hf
      exact ih hf
    rename_i heq
    rw [heq] at hf
    split
    · exact ih hf
    · exact ih hf

theorem balanced_load {url : Url} : Balanced net (load engine net url s).2 := by
  rw [load]
  have hf : Balanced net (fetch net (transportFor url) url s).2 := balanced_fetch h
  split
  next heq =>
    rw [heq] at hf
    exact hf
  rename_i heq
  rw [heq] at hf
  split
  · exact hf
  · exact balanced_fetchImages (balanced_fetchStylesheets hf)

end

/-- Whatever is loaded and whatever the servers answer, https travels encrypted exactly when
no fetch from an http URL is redirected to an https URL where the connection opens. -/
theorem https_encrypted_iff (engine : Engine) (net : Net) (url : Url) :
    Encrypted (load engine net url .begin).2.sent (load engine net url .begin).2.got ↔
      NoUpgrade net (load engine net url .begin).2.sent := by
  apply balanced_load
  apply iff_of_true
  · constructor
    · exact nofun
    · exact nofun
  · exact nofun

end Balanced

def plainUrl : Url := ⟨lit "http", lit "a", 80, lit "/", [], []⟩

def upgradingNet : Net
  | 0 => ⟨none, true, [lit "HTTP/1.1 302 Found\r\nLocation: https://b/\r\n\r\n"], true⟩
  | _ => ⟨none, true, [lit "HTTP/1.1 200 OK\r\n\r\nx"], true⟩

def blankEngine : Engine := ⟨fun _ => ⟨[], .mk none [] []⟩, fun _ => none, fun _ => true⟩

/-- The request for `https://b/` is written to the plain connection, and so is its answer
read. -/
theorem https_in_plaintext : ¬ Encrypted (load blankEngine upgradingNet plainUrl .begin).2.sent
        (load blankEngine upgradingNet plainUrl .begin).2.got := by
  have hsent : (load blankEngine upgradingNet plainUrl .begin).2.sent.map
      (fun q => (q.via, q.url.isHttps)) = [(.plain, false), (.plain, true)] := by
    decide +kernel
  intro h
  have hmem : (Via.plain, true) ∈ (load blankEngine upgradingNet plainUrl .begin).2.sent.map
      (fun q => (q.via, q.url.isHttps)) := by
    rw [hsent]
    decide
  obtain ⟨q, hq, heq⟩ := mem_map.mp hmem
  have hvia : q.via = .plain := congrArg Prod.fst heq
  have htls := h.sent q hq (congrArg Prod.snd heq)
  rw [hvia] at htls
  exact nomatch htls

end Kyuzen.Browser
