/-
This file models how `content/urldb.c` visits the URLs of the database, and the runs of the database:
its calls in any order.
-/

import Neosurf.Construction.Nsurl.Create
import Neosurf.Construction.Urldb.Cookies
import Neosurf.Construction.Urldb.Database

namespace Neosurf.Urldb

/-- A node is known by the parts of its host, whatever the case of their letters, and by the keys
of the nodes down to it. -/
structure NodePlace where
  parts : List Bytes
  keys : List (LwcString × Nat × Bytes)
  deriving DecidableEq, Repr

/-- A callback gets a URL and a pointer to the data of its node: its place and what is there. -/
structure Entry where
  url : Nsurl
  place : NodePlace
  data : UrlData
  deriving DecidableEq, Repr

/-- A callback changes the state of its caller, and says whether to go on. -/
abbrev UrlCallback (σ : Type) := Entry → σ → σ × Bool

variable {σ : Type}

/-- This is `urldb_iterate_entries_path` with a callback for URLs. Nodes with children are passed
over. A node without children must have a URL. -/
def Paths.iterate (callback : UrlCallback σ) (parts : List Bytes) :
    List (LwcString × Nat × Bytes) → Paths → σ → Option (σ × Bool)
  | _, .nil, s => some (s, true)
  | above, .cons d .nil next, s =>
      match d.url with
      | none => none
      | some url =>
          match callback ⟨url, ⟨parts, above ++ [d.key]⟩, d.urld⟩ s with
          | (s, false) => some (s, false)
          | (s, true) => iterate callback parts above next s
  | above, .cons d (.cons e below after) next, s =>
      match iterate callback parts (above ++ [d.key]) (.cons e below after) s with
      | some (s, true) => iterate callback parts above next s
      | stopped => stopped

/-- The host that a search tree refers to. -/
def hostAt (db : Database) (chain : Chain) : HostData :=
  ((db.hosts.walk chain.reverse).bind List.getLast?).getD { part := [] }

/-- This is `urldb_iterate_entries_host`. -/
def iterateHosts (callback : UrlCallback σ) (db : Database) : AATree Chain → σ → Option (σ × Bool)
  | .empty, s => some (s, true)
  | .node _ chain left right, s =>
      match iterateHosts callback db left s with
      | some (s, true) =>
          match (hostAt db chain).paths.iterate callback (chain.reverse.map folded) [] s with
          | some (s, true) => iterateHosts callback db right s
          | stopped => stopped
      | stopped => stopped

def NUM_SEARCH_TREES : Nat := 28

/-- The loop of `urldb_iterate_entries` over the search trees. -/
def iterateTrees (callback : UrlCallback σ) (db : Database) : List Nat → σ → Option σ
  | [], s => some s
  | i :: rest, s =>
      match iterateHosts callback db (db.searchTrees i) s with
      | none => none
      | some (s, false) => some s
      | some (s, true) => iterateTrees callback db rest s

/-- This is `urldb_iterate_entries`, with the state that the callback leaves. -/
def iterateEntries (callback : UrlCallback σ) (db : Database) (s : σ) : Option σ :=
  iterateTrees callback db (List.range NUM_SEARCH_TREES) s

/-- This is `strncasecmp` over the length of the second text. -/
def strncasecmp (a b : Bytes) : Ordering := strcasecmp (a.take b.length) b

/-- This is the loop of `urldb_search_match_prefix`. The last label may go on in the host. -/
def searchMatchLabels : Chain → List Bytes → Ordering
  | [], _ => .lt
  | _ :: _, [] => .eq
  | part :: _, [label] => strncasecmp part label
  | part :: above, label :: next :: labels =>
      (strcasecmp part label).then (searchMatchLabels above (next :: labels))

/-- This is `urldb_search_match_prefix`. -/
def searchMatchPrefix (env : Environment) (b : Bytes) (a : Chain) : Ordering :=
  if hostIsIpAddress env b then strncasecmp (a.headD []) b
  else searchMatchLabels a (b.splitOn (chr '.'))

/-- This is `urldb_iterate_partial_host`. -/
def iteratePartialHost (callback : UrlCallback σ) (env : Environment) (db : Database)
    (text : Bytes) : AATree Chain → σ → Option (σ × Bool)
  | .empty, s => some (s, true)
  | .node _ chain left right, s =>
      match searchMatchPrefix env text chain with
      | .gt => iteratePartialHost callback env db text left s
      | .lt => iteratePartialHost callback env db text right s
      | .eq =>
          match iteratePartialHost callback env db text left s with
          | some (s, true) =>
              match (hostAt db chain).paths.iterate callback (chain.reverse.map folded) [] s with
              | some (s, true) => iteratePartialHost callback env db text right s
              | stopped => stopped
          | stopped => stopped

/-- This is the loop of `urldb_iterate_partial_path`. Slashes before a segment are skipped, and
the loop does not come back from the children of a node to its siblings. -/
def Paths.iteratePartialPath (callback : UrlCallback σ) (parts : List Bytes) :
    List (LwcString × Nat × Bytes) → Bytes → Paths → σ → Option (σ × Bool)
  | _, _, .nil, s => some (s, true)
  | above, text, .cons d children next, s =>
      let text := text.dropWhile (· == chr '/')
      let segment := text.takeWhile (· != chr '/')
      if strncasecmp d.segment segment = .eq then
        if segment.length = text.length then
          match Paths.iterate callback parts above (.cons d children .nil) s with
          | some (s, true) => iteratePartialPath callback parts above text next s
          | stopped => stopped
        else
          iteratePartialPath callback parts (above ++ [d.key]) (text.drop (segment.length + 1))
            children s
      else iteratePartialPath callback parts above text next s

/-- The text after its first `://`, or all of it. -/
def withoutScheme (text : Bytes) : Bytes :=
  match text.tails.find? (startsWith (str "://")) with
  | some found => found.drop 3
  | none => text

/-- The host of a prefix ends at its first slash. -/
def partialHost (text : Bytes) : Bytes := text.takeWhile (· != chr '/')

/-- A host is also looked for with `www.` before it, unless it has that. -/
def lacksWww (host : Bytes) : Bool := host.length ≤ 3 || strncasecmp host (str "www.") != .eq

/-- The buffer holds the longest name after `www.`. -/
def withWww (host : Bytes) : Bytes := (str "www." ++ host).take 259

/-- The search tree for names that begin with `w`. -/
def WWW_TREE : Nat := ST_DN + (chr 'w' - chr 'a').toNat

/-- The lookup of the host before a path, in a buffer of 256 bytes. -/
def findPartialHost (env : Environment) (db : Database) (text : Bytes) : Option Chain :=
  let host := (partialHost text).take 255
  match (db.searchTrees (searchTreeOf env text)).find (searchMatchString env host) with
  | some chain => some chain
  | none =>
      if lacksWww (partialHost text) then
        (db.searchTrees WWW_TREE).find (searchMatchString env (withWww host))
      else none

/-- This is `urldb_iterate_partial`, with the state that the callback leaves. -/
def iteratePartial (callback : UrlCallback σ) (env : Environment) (db : Database) (text : Bytes)
    (s : σ) : Option σ :=
  let text := withoutScheme text
  if chr '/' ∈ text then
    match findPartialHost env db text with
    | none => some s
    | some chain =>
        ((hostAt db chain).paths.iteratePartialPath callback (chain.reverse.map folded) []
          (text.drop ((partialHost text).length + 1)) s).map Prod.fst
  else
    match iteratePartialHost callback env db text (db.searchTrees (searchTreeOf env text)) s with
    | some (s, true) =>
        if lacksWww text then
          (iteratePartialHost callback env db (withWww text) (db.searchTrees WWW_TREE) s).map
            Prod.fst
        else some s
    | stopped => stopped.map Prod.fst

end Neosurf.Urldb

namespace Neosurf.Urldb

/-- The same world at another time. -/
def Environment.at (env : Environment) (now : Int) : Environment := { env with now }

/-- One entry of a URL file gives this text. A file URL is stored under `localhost`. -/
def loadedText (host scheme ports rest : Bytes) : Bytes :=
  let isFile := strcasecmp host (str "localhost") == .eq && strcasecmp scheme (str "file") == .eq
  let port := if atoi ports = 0 then [] else str ":" ++ ports
  scheme ++ str "://" ++ (if isFile then [] else host) ++ port ++ rest

/-- This is the part of `urldb_load` for one entry below a host. -/
def loadUrl (env : Environment) (db : Database) (junk : Nsurl.Buff)
    (host scheme ports rest : Bytes) : Database :=
  match Nsurl.nsurlCreate junk (loadedText host scheme ports rest) with
  | .error _ => db
  | .ok url =>
      let db := bloomInsert db url.hash
      match pathQuery url, url.components.scheme with
      | some path, some scheme =>
          addPath (hostParts env host) scheme (atoi ports % 2 ^ 32).toNat path (setUrl url) db
      | _, _ => db

/-- These calls change the database. A file is loaded line by line. -/
inductive Operation where
  | addUrl (url : Nsurl)
  | getCookie (url : Nsurl) (includeHttpOnly : Bool)
  | setCookie (header : Bytes) (url : Nsurl) (referer : Option Nsurl)
  | deleteCookie (domain path name : Bytes)
  | loadFilter
  | loadHost (host : Bytes)
  | loadUrl (junk : Nsurl.Buff) (host scheme ports rest : Bytes)
  | loadCookie (c : Cookie) (scheme : LwcString) (page : Nsurl)
  | destroy
  | setAuthDetails (url : Nsurl) (realm auth : Bytes)
  | getAuthDetails (url : Nsurl) (realm : Option Bytes)
  | setCertPermissions (url : Nsurl) (permit : Bool)
  | setHstsPolicy (url : Nsurl) (header : Bytes)
  | getHstsEnabled (url : Nsurl)
  | changeUrl (url : Nsurl) (change : UrlChange)
  | loadHsts (host : Bytes) (hsts : HstsData)
  | loadUrlData (host : Bytes) (scheme : LwcString) (port : Nat) (path : Bytes) (urld : UrlData)

/-- An operation ends in a database, unless it never ends. The host of an entry in a URL
file is added again before it. -/
def step (env : Environment) (db : Database) : Operation → Option Database
  | .addUrl url => some (addUrl env db url).1
  | .getCookie url includeHttpOnly => some (getCookie env db url includeHttpOnly).1
  | .setCookie header url referer =>
      match setCookie env db header url referer with
      | .done db _ => some db
      | .diverges => none
  | .deleteCookie domain path name => some (deleteCookie db domain path name)
  | .loadFilter => some { db with bloom := some (db.bloom.getD []) }
  | .loadHost host => some (addHost env db host)
  | .loadUrl junk host scheme ports rest =>
      some (loadUrl env (addHost env db host) junk host scheme ports rest)
  | .loadCookie c scheme page => some (insertCookie env db c scheme page)
  | .destroy => some {}
  | .setAuthDetails url realm auth => some (setAuthDetails env db url realm auth)
  | .getAuthDetails url realm => some (getAuthDetails env db url realm).1
  | .setCertPermissions url permit => some (setCertPermissions env db url permit)
  | .setHstsPolicy url header => some (setHstsPolicy env db url header).1
  | .getHstsEnabled url => some (getHstsEnabled env db url).1
  | .changeUrl url change => some (changeUrl env db url change)
  | .loadHsts host hsts => some (loadHsts env db host hsts)
  | .loadUrlData host scheme port path urld => some (loadUrlData env db host scheme port path urld)

/-- The databases that steps of one kind reach, at any times. -/
inductive Reachable (env : Environment) (ok : Environment → Database → Operation → Prop) :
    Database → Prop
  | empty : Reachable env ok {}
  | step {db after : Database} (now : Int) (op : Operation) (before : Reachable env ok db)
      (allowed : ok (env.at now) db op) (done : step (env.at now) db op = some after) :
      Reachable env ok after

/-- A run of steps of one kind from the empty database, with its steps and their times, the
latest first. -/
inductive Run (env : Environment) (ok : Environment → Database → Operation → Prop) :
    Database → List (Int × Operation) → Prop
  | empty : Run env ok {} []
  | step {db after : Database} {ops : List (Int × Operation)} (now : Int) (op : Operation)
      (before : Run env ok db ops) (allowed : ok (env.at now) db op)
      (done : step (env.at now) db op = some after) : Run env ok after ((now, op) :: ops)

/-- The cookies that the loop of `urldb_set_cookie` stores, one for each round. -/
def storedCookies (env : Environment) (url : Nsurl) (host path : Bytes) : Nat → Bytes → List Cookie
  | 0, _ => []
  | rounds + 1, cur =>
      match parseCookie env url cur with
      | none => []
      | some (c, rest) =>
          if validCookie env host path c then
            c :: if rest.length ≤ 2 then [] else storedCookies env url host path rounds rest
          else []

/-- An operation stores a cookie. -/
def Stores (env : Environment) (c : Cookie) : Operation → Prop
  | .setCookie header url _ => ∃ host path, url.components.host = some host ∧
      url.components.path = some path ∧
      c ∈ storedCookies env url host path (header.length + 1) header
  | .loadCookie stored _ _ => c = stored
  | _ => False

end Neosurf.Urldb
