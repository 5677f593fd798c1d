/-
This file models how the database of `content/urldb.c` stores, deletes and finds cookies, and
the loop of `urldb_set_cookie` round by round, as long as it goes on. The links of the cookies of a
node are modelled by hand.
-/

import Neosurf.Construction.Urldb.Database
import Neosurf.ToMathlib.LinkedCells

namespace Neosurf.Urldb

/-- Two cookies with one domain, path and name take the same place. -/
def Cookie.samePlace (a b : Cookie) : Bool :=
  a.domain == b.domain && a.path == b.path && a.name == b.name

/-- A cookie that has expired is not sent. -/
def Cookie.expired (now : Int) (c : Cookie) : Bool := c.expires != -1 && c.expires < now

/-- The last part of `urldb_insert_cookie`: a cookie replaces the one in its place, or
removes it when it has expired. Without one, it enters the list even if it has expired. -/
def insertInto (now : Int) (c : Cookie) : List Cookie → List Cookie
  | [] => [c]
  | d :: rest =>
      if d.samePlace c then if c.expired now then rest else c :: rest
      else d :: insertInto now c rest

/-- The host of a cookie is looked up, and added when it is missing. -/
def findOrAddHost (env : Environment) (db : Database) (host : Bytes) : Database × List Bytes :=
  match searchFind env db host with
  | some chain => (db, chain.reverse)
  | none => (addHost env db host, hostParts env host)

/-- This is `urldb_insert_cookie`. A domain cookie goes to the host, another cookie to its
path under the default port. -/
def insertCookie (env : Environment) (db : Database) (c : Cookie) (scheme : LwcString)
    (url : Nsurl) : Database :=
  if byteAt c.domain 0 = chr '.' then
    let (db, parts) := findOrAddHost env db (c.domain.drop 1)
    let changeHost (h : HostData) : HostData :=
      { h with cookies := insertInto env.now c h.cookies }
    { db with hosts := db.hosts.modifyAt changeHost parts }
  else
    let (db, parts) := findOrAddHost env db c.domain
    let change (d : PathData) : PathData :=
      { setUrl url d with cookies := insertInto env.now c d.cookies }
    addPath parts scheme 0 c.path change db

/-- This is the common end of two texts. -/
def commonSuffix (a b : Bytes) : Bytes :=
  (((a.reverse.zip b.reverse).takeWhile fun pair => pair.1 == pair.2).map Prod.fst).reverse

/-- A referrer from another host is accepted when both hosts share a suffix with a dot at
its start, a dot inside and something after that. -/
def refererMatches (env : Environment) (host rhost : Bytes) : Bool :=
  if (lwcStringIsequal host rhost).2 then true
  else if hostIsIpAddress env (cstr host) || hostIsIpAddress env (cstr rhost) then false
  else
    let suffix := (cstr (commonSuffix host rhost)).dropWhile (· ≠ chr '.')
    let inner := (suffix.drop 1).dropWhile (· ≠ chr '.')
    suffix != [] && (inner.drop 1) != []

/-- A cookie for another domain must be a domain cookie for a suffix of the host. -/
def domainMatches (env : Environment) (host domain : Bytes) : Bool :=
  if strcasecmp (cstr host) domain = .eq then true
  else if hostIsIpAddress env (cstr host) then false
  else if host.length ≤ domain.length ∧ host.length + 1 ≠ domain.length then false
  else
    let domain := if host.length + 1 = domain.length then domain.drop 1 else domain
    strcasecmp (cstr (host.drop (host.length - domain.length))) domain == .eq

/-- These are the checks of `urldb_set_cookie` on one cookie. -/
def validCookie (env : Environment) (host path : Bytes) (c : Cookie) : Bool :=
  let dotless := if byteAt c.domain 0 = chr '.' then c.domain.drop 1 else c.domain
  startsWith c.path path && !env.isPublicSuffix dotless && domainMatches env host c.domain

/-- How the loop of `urldb_set_cookie` ends: with its answer, or never. -/
inductive SetResult where
  | done (db : Database) (answer : Bool)
  | diverges

/-- The loop of `urldb_set_cookie` over the cookies of a header. The last two characters
are taken for the line end. A cookie that consumes nothing is parsed again and again. -/
def setCookies (env : Environment) (url : Nsurl) (scheme host path : Bytes) :
    Nat → Bytes → Database → SetResult
  | 0, _, _ => .diverges
  | rounds + 1, cur, db =>
      match parseCookie env url cur with
      | none => .done db false
      | some (c, rest) =>
          if validCookie env host path c then
            let db := insertCookie env db c scheme (Nsurl.defragment url)
            if rest.length ≤ 2 then .done db true
            else if rest.length = cur.length then .diverges
            else setCookies env url scheme host path rounds rest db
          else .done db false

/-- This is `urldb_set_cookie`. -/
def setCookie (env : Environment) (db : Database) (header : Bytes) (url : Nsurl)
    (referer : Option Nsurl) : SetResult :=
  match url.components.scheme, url.components.path, url.components.host with
  | some scheme, some path, some host =>
      let accepted := match referer with
        | none => true
        | some referer =>
            match referer.components.host with
            | none => false
            | some rhost => refererMatches env host rhost
      if accepted then setCookies env url scheme host path (header.length + 1) header db
      else .done db false
  | _, _, _ => .done db false

/-- The filter for secure cookies. The comparison answers with its error code, which is
zero, so that it never takes effect. -/
def secureIgnored (scheme : LwcString) (c : Cookie) : Bool :=
  let answer := lwcStringIsequal scheme (str "https")
  c.secure && (answer.1 != 0 && answer.2 == false)

/-- The cookie path starts the path of the URL. -/
def pathMatches (path : Bytes) (c : Cookie) : Bool := startsWith c.path path

/-- The cookies of the exact path, under any scheme and port. -/
def exactPathCookies (now : Int) (includeHttpOnly : Bool) (p : PathData) (siblings : Paths) :
    List Cookie :=
  siblings.toList.flatMap fun q =>
    if q.segment = p.segment then
      q.cookies.filter fun c =>
        !c.expired now && !secureIgnored q.scheme c && !(c.httpOnly && !includeHttpOnly)
    else []

/-- The cookies of the directory nodes of a level. -/
def directoryCookies (now : Int) (siblings : Paths) : List Cookie :=
  siblings.toList.flatMap fun q =>
    if q.segment = [] then
      q.cookies.filter fun c => !c.expired now && !secureIgnored q.scheme c
    else []

/-- The cookies of the node above a level, which stem from a path without a slash at
its end. -/
def parentCookies (now : Int) (path : Bytes) (parent : Option PathData) : List Cookie :=
  match parent with
  | none => []
  | some p =>
      p.cookies.filter fun c =>
        !c.expired now && pathMatches path c && !secureIgnored p.scheme c

/-- The cookies of a domain. -/
def domainCookies (now : Int) (path : Bytes) (scheme : LwcString) (h : HostData) : List Cookie :=
  h.cookies.filter fun c =>
    !c.expired now && pathMatches path c && !secureIgnored scheme c

/-- These are the cookies that `urldb_get_cookie` collects around a node. -/
def matchedCookies (now : Int) (includeHttpOnly : Bool) (path : Bytes) (found : Found) :
    List Cookie :=
  let p := found.node
  let siblings := (found.levels.head?.map Level.siblings).getD .nil
  (if p.segment = [] then [] else exactPathCookies now includeHttpOnly p siblings) ++
  (found.levels.flatMap fun level =>
    directoryCookies now level.siblings ++ parentCookies now path level.parent) ++
  found.hosts.reverse.flatMap (domainCookies now path p.scheme)

/-- The cookies for a URL, which is added first. -/
def cookiesFor (env : Environment) (db : Database) (url : Nsurl) (includeHttpOnly : Bool) :
    List Cookie :=
  match findUrl env (addUrl env db url).1 url, url.components.path with
  | some found, some path => matchedCookies env.now includeHttpOnly path found
  | _, _ => []

/-- This is `urldb_get_cookie`, with the database where the URL was added. -/
def getCookie (env : Environment) (db : Database) (url : Nsurl) (includeHttpOnly : Bool) :
    Database × Option Bytes :=
  ((addUrl env db url).1, cookieHeader (cookiesFor env db url includeHttpOnly))

/-- The cookies of a host itself and those of its paths. -/
def HostData.allCookies (h : HostData) : List Cookie :=
  h.cookies ++ h.paths.nodes.flatMap PathData.cookies

/-- All cookies that are stored, in the order of the host tree and of the path trees. -/
def Database.cookies (db : Database) : List Cookie := db.hosts.nodes.flatMap HostData.allCookies

/-- A cookie has this domain, path and name. -/
def Cookie.isAt (domain path name : Bytes) (c : Cookie) : Bool :=
  c.domain == domain && c.path == path && c.name == name

/-- The first cookie with this domain, path and name leaves the list. -/
def removeFrom (domain path name : Bytes) : List Cookie → Option (List Cookie)
  | [] => none
  | c :: rest =>
      if c.domain = domain ∧ c.path = path ∧ c.name = name then some rest
      else (removeFrom domain path name rest).map (c :: ·)

/-- The loop of `urldb_delete_cookie_paths` over the nodes of a host. It stops at the first
cookie that it removes. -/
def Paths.deleteCookie (domain path name : Bytes) : Paths → Option Paths
  | .nil => none
  | .cons d children next =>
      match removeFrom domain path name d.cookies with
      | some cookies => some (.cons { d with cookies } children next)
      | none =>
          match deleteCookie domain path name children with
          | some children => some (.cons d children next)
          | none => (deleteCookie domain path name next).map (.cons d children)

/-- The host itself comes before its paths. -/
def HostData.deleteCookie (domain path name : Bytes) (h : HostData) : HostData :=
  match removeFrom domain path name h.cookies with
  | some cookies => { h with cookies }
  | none => { h with paths := (h.paths.deleteCookie domain path name).getD h.paths }

/-- This is `urldb_delete_cookie_hosts`, which visits every host. -/
def Hosts.deleteCookie (domain path name : Bytes) : Hosts → Hosts
  | .nil => .nil
  | .cons h children next =>
      .cons (h.deleteCookie domain path name) (deleteCookie domain path name children)
        (deleteCookie domain path name next)

/-- This is `urldb_delete_cookie`. -/
def deleteCookie (db : Database) (domain path name : Bytes) : Database :=
  { db with hosts := db.hosts.deleteCookie domain path name }

variable (env : Environment) (url : Nsurl) (scheme host path : Bytes)

/-- This is the loop of `urldb_set_cookie`, with its answer if it ends within so many rounds. The
last two characters are taken for the line end. -/
def cookieLoop : Nat → Bytes → Database → Option (Database × Bool)
  | 0, _, _ => none
  | rounds + 1, cur, db =>
      match parseCookie env url cur with
      | none => some (db, false)
      | some (c, rest) =>
          if validCookie env host path c then
            let db := insertCookie env db c scheme (Nsurl.defragment url)
            if rest.length ≤ 2 then some (db, true) else cookieLoop rounds rest db
          else some (db, false)

/-- The loop comes from one position to another, round by round. -/
inductive Comes : Bytes → Bytes → Prop
  | here (cur : Bytes) : Comes cur cur
  | round {cur rest later : Bytes} {c : Cookie} (parsed : parseCookie env url cur = some (c, rest))
      (valid : validCookie env host path c) (unread : 2 < rest.length)
      (onwards : Comes rest later) : Comes cur later

/-- The loop ends, and every call of `urldb_parse_cookie` that leaves unread input advances. -/
structure Progresses (header : Bytes) (db : Database) : Prop where
  ends : ∃ rounds outcome, cookieLoop env url scheme host path rounds header db = some outcome
  advances : ∀ cur c rest, Comes env url host path header cur →
    parseCookie env url cur = some (c, rest) → 2 < rest.length → rest.length < cur.length

/-- A text begins with a line end, which is no end of the header. -/
def AtLineEnd (cur : Bytes) : Prop := byteAt cur 0 = 13 ∧ byteAt cur 1 = 10 ∧ 2 < cur.length

instance (cur : Bytes) : Decidable (AtLineEnd cur) := inferInstanceAs (Decidable (_ ∧ _ ∧ _))

/-- The cookies in memory, the next address for a cookie, and the fields `cookies` and
`cookies_end` of each node. -/
structure CookieLists (ι : Type*) where
  memory : CellMemory Cookie := fun _ => none
  fresh : Nat := 0
  ends : ι → LinkedEnds := fun _ => {}

namespace CookieLists

variable {ι : Type*} [DecidableEq ι]

/-- The loop over the cookies of a node. It takes at most one round for each address. -/
def find (test : Cookie → Bool) (p : ι) (s : CookieLists ι) : Option (Nat × LinkedCell Cookie) :=
  s.memory.find test s.fresh (s.ends p).first

/-- The last part of `urldb_insert_cookie`, where the new cookie is at the next address. -/
def insert (now : Int) (p : ι) (c : Cookie) (s : CookieLists ι) : CookieLists ι :=
  let new := s.fresh
  match s.find (fun d => d.samePlace c) p with
  | some (d, old) =>
      if c.expired now then
        { memory := ((s.memory.setPrev old.next old.prev).setNext old.prev old.next).free d
          fresh := new + 1
          ends := Function.update s.ends p ((s.ends p).without old.prev old.next) }
      else
        let memory : CellMemory Cookie := Function.update s.memory new (some ⟨old.prev, old.next, c⟩)
        let memory := (memory.setPrev old.next (some new)).setNext old.prev (some new)
        { memory := memory.free d
          fresh := new + 1
          ends := Function.update s.ends p ((s.ends p).replaced old.prev old.next new) }
  | none =>
      let last := (s.ends p).last
      let memory : CellMemory Cookie := Function.update s.memory new (some ⟨last, none, c⟩)
      { memory := memory.setNext last (some new)
        fresh := new + 1
        ends := Function.update s.ends p ((s.ends p).extended new) }

/-- The loop of `urldb_delete_cookie_paths` over the nodes of a host. -/
def deletePaths (domain path name : Bytes) : List ι → CookieLists ι → CookieLists ι
  | [], s => s
  | p :: rest, s =>
      match s.find (Cookie.isAt domain path name) p with
      | some (c, cell) =>
          { s with
            memory := ((s.memory.setNext cell.prev cell.next).setPrev cell.next cell.prev).free c
            ends := Function.update s.ends p ((s.ends p).without cell.prev cell.next) }
      | none => deletePaths domain path name rest s

/-- This is `urldb_delete_cookie_hosts` over the nodes of each host. -/
def deleteHosts (domain path name : Bytes) (hosts : List (List ι)) (s : CookieLists ι) :
    CookieLists ι :=
  hosts.foldl (fun s nodes => s.deletePaths domain path name nodes) s

end CookieLists

/-- A cookie is inserted at a node, or a cookie is deleted from the nodes of all hosts. -/
inductive CookieStep (ι : Type*) where
  | insert (now : Int) (p : ι) (c : Cookie)
  | delete (domain path name : Bytes) (hosts : List (List ι))

namespace CookieStep

variable {ι : Type*} [DecidableEq ι]

def apply (s : CookieLists ι) : CookieStep ι → CookieLists ι
  | insert now p c => s.insert now p c
  | delete domain path name hosts => s.deleteHosts domain path name hosts

/-- The steps from the empty lists on. -/
def run (steps : List (CookieStep ι)) : CookieLists ι := steps.foldl apply {}

/-- The deletion on the lists of the database, which have no links. -/
def deleteFrom (domain path name : Bytes) : List ι → (ι → List Cookie) → ι → List Cookie
  | [], lists => lists
  | p :: rest, lists =>
      match removeFrom domain path name (lists p) with
      | some cookies => Function.update lists p cookies
      | none => deleteFrom domain path name rest lists

/-- A step on the lists of the database. -/
def applyLists (lists : ι → List Cookie) : CookieStep ι → ι → List Cookie
  | insert now p c => Function.update lists p (insertInto now c (lists p))
  | delete domain path name hosts =>
      hosts.foldl (fun lists nodes => deleteFrom domain path name nodes lists) lists

def runLists (steps : List (CookieStep ι)) : ι → List Cookie :=
  steps.foldl applyLists fun _ => []

end CookieStep

end Neosurf.Urldb
