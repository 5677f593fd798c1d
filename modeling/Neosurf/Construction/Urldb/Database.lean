/-
This file models the database of `content/urldb.c`, its operations on URLs, and what it notes about
URLs and hosts: visits and titles, authentication details, certificate permissions and transport
security policies.
-/

import Neosurf.Construction.Nsurl.Create
import Neosurf.Construction.Urldb.Hosts
import Neosurf.Construction.Http
import Neosurf.ToMathlib.ChangeFirst

namespace Neosurf.Urldb

/-- The database holds a filter over URL hashes, once a URL was added, the host tree and
the search trees. -/
structure Database where
  bloom : Option (List Nat) := none
  hosts : Hosts := .nil
  searchTrees : Nat → AATree Chain := fun _ => .empty

/-- The filter has so many bits. -/
def BLOOM_BITS : Nat := 1024 * 32 * 8

def bloomIndex (hash : UInt32) : Nat := hash.toNat % BLOOM_BITS

/-- The filter is made with the first URL. -/
def bloomInsert (db : Database) (hash : UInt32) : Database :=
  { db with bloom := some (bloomIndex hash :: db.bloom.getD []) }

/-- Without a filter, every URL may be present. -/
def bloomSearch (db : Database) (hash : UInt32) : Bool :=
  match db.bloom with
  | some bits => bits.contains (bloomIndex hash)
  | none => true

/-- The host of a URL as the database reads it. -/
def hostStr (url : Nsurl) : Option Bytes :=
  match url.components.host with
  | some host => some (cstr host)
  | none => if url.components.scheme = some (str "file") then some (str "localhost") else none

/-- The port of a URL as an `unsigned int`. -/
def portInt (url : Nsurl) : Nat :=
  match url.components.port with
  | some port => (atoi port % 2 ^ 32).toNat
  | none => 0

/-- This is `urldb_search_find` in the tree for a host. -/
def searchFind (env : Environment) (db : Database) (host : Bytes) : Option Chain :=
  (db.searchTrees (searchTreeOf env host)).find (searchMatchString env host)

/-- The chain of a host that was added enters a search tree. -/
def searchInsert (db : Database) (tree : Nat) (chain : Chain) : Database :=
  { db with searchTrees := fun i =>
      if i = tree then (db.searchTrees tree).insert searchMatchHost chain else db.searchTrees i }

/-- This is `urldb_add_host`. The tree for a name is chosen by its first label. -/
def addHost (env : Environment) (db : Database) (host : Bytes) : Database :=
  let parts := hostParts env host
  if hostIsIpAddress env host ∧ db.hosts.has (HostData.isNamed host) then db
  else
    let hosts := db.hosts.add parts
    let chain := ((hosts.walk parts).getD []).reverse.map HostData.part
    searchInsert { db with hosts } (searchTreeOf env (parts.getLastD [])) chain

/-- A new node gets the URL without its fragment. -/
def setUrl (url : Nsurl) (d : PathData) : PathData :=
  if d.url = none then { d with url := some (Nsurl.defragment url) } else d

/-- A path is added below a host. -/
def HostData.addPath (scheme : LwcString) (port : Nat) (pathQuery : Bytes)
    (change : PathData → PathData) (h : HostData) : HostData :=
  { h with paths := h.paths.addPath scheme port change (segments pathQuery) }

/-- This is `urldb_add_path` on the host at the end of these parts. -/
def addPath (parts : List Bytes) (scheme : LwcString) (port : Nat) (pathQuery : Bytes)
    (change : PathData → PathData) (db : Database) : Database :=
  { db with hosts := db.hosts.modifyAt (HostData.addPath scheme port pathQuery change) parts }

/-- The path and query of a URL. -/
def pathQuery (url : Nsurl) : Option Bytes :=
  match Nsurl.get url (Nsurl.PATH ||| Nsurl.QUERY) with
  | .ok (path, _) => some path
  | .error _ => none

/-- This is `urldb_add_url`. -/
def addUrl (env : Environment) (db : Database) (url : Nsurl) : Database × Bool :=
  let db := bloomInsert db url.hash
  match pathQuery url, url.components.scheme, hostStr url with
  | some path, some scheme, some host =>
      let db := addHost env db host
      (addPath (hostParts env host) scheme (portInt url) path (setUrl url) db, true)
  | _, _, _ => (db, false)

/-- What a lookup finds: the host parts, the node and its levels. -/
structure Found where
  hosts : List HostData
  node : PathData
  levels : List Level
  deriving DecidableEq, Repr

/-- A port that is narrowed to an `unsigned short`. -/
def narrow (port : Nat) : Nat := port % 2 ^ 16

/-- The last part of `urldb_find_url` looks in the paths of a host. A path without a slash
at its start fails an assertion. -/
def findPath (hosts : List HostData) (scheme : LwcString) (port : Nat) (path : Bytes) :
    Option Found := do
  let host ← hosts.getLast?
  if byteAt path 0 ≠ chr '/' then none
  else do
    let (node, levels) ← matchPath scheme (narrow port) ⟨none, host.paths⟩ [] host.paths
      (segments path)
    some { hosts, node, levels }

/-- This is `urldb_find_url`. -/
def findUrl (env : Environment) (db : Database) (url : Nsurl) : Option Found := do
  if bloomSearch db url.hash = false then none
  else do
    let scheme ← url.components.scheme
    if scheme = str "mailto" then none
    else do
      let host ← hostStr url
      let chain ← searchFind env db host
      let hosts ← db.hosts.walk chain.reverse
      let path ← pathQuery url
      findPath hosts scheme (portInt url) path

/-- The node that a lookup below a host answers with is changed, and then the host. -/
def HostData.annotate (scheme : LwcString) (port : Nat) (path : Bytes)
    (changeHost : HostData → HostData) (changeNode : PathData → PathData) (h : HostData) :
    HostData :=
  let paths := h.paths.extend (PathData.matches scheme port) (fun _ t => t) changeNode
    (segments path)
  changeHost { h with paths }

/-- What `urldb_find_url` finds is changed, the node and its host. -/
def annotate (env : Environment) (db : Database) (url : Nsurl) (changeHost : HostData → HostData)
    (changeNode : PathData → PathData) : Database :=
  match findUrl env db url, url.components.scheme, pathQuery url with
  | some found, some scheme, some path =>
      let change := HostData.annotate scheme (narrow (portInt url)) path changeHost changeNode
      { db with hosts := db.hosts.modifyAt change (found.hosts.map HostData.part) }
  | _, _, _ => db

/-- The node that was found and the nodes above it, up to the host. -/
def Found.upward (found : Found) : List PathData :=
  found.node :: found.levels.filterMap Level.parent

/-- A protection space that is known gets other details, and an unknown one is added. -/
def HostData.setAuth (key : ProtSpaceKey) (auth : Bytes) (h : HostData) : HostData :=
  let here (space : ProtSpace) : Bool := space.toProtSpaceKey == key
  let protSpaces :=
    if h.protSpaces.any here then h.protSpaces.changeFirst here fun space => { space with auth }
    else { key with auth } :: h.protSpaces
  { h with protSpaces }

/-- The details of a protection space. -/
def HostData.authOf (key : ProtSpaceKey) (h : HostData) : Option Bytes :=
  (h.protSpaces.find? fun space => space.toProtSpaceKey == key).map ProtSpace.auth

/-- The protection space of a node is identified by its scheme and port and a realm. -/
def PathData.spaceKey (realm : Bytes) (d : PathData) : ProtSpaceKey where
  scheme := d.scheme
  port := d.port
  realm := realm

/-- A node belongs to a protection space. -/
def PathData.setSpace (key : ProtSpaceKey) (d : PathData) : PathData :=
  { d with protSpace := some key }

/-- This is `urldb_set_auth_details`. -/
def setAuthDetails (env : Environment) (db : Database) (url : Nsurl) (realm auth : Bytes) :
    Database :=
  let db := (addUrl env db url).1
  match findUrl env db url with
  | none => db
  | some found =>
      let key := found.node.spaceKey realm
      annotate env db url (HostData.setAuth key auth) (PathData.setSpace key)

/-- This is `urldb_get_auth_details`, with the database that it leaves. The spaces of the nodes
come before those of the host. -/
def getAuthDetails (env : Environment) (db : Database) (url : Nsurl) (realm : Option Bytes) :
    Database × Option Bytes :=
  let db := (addUrl env db url).1
  match findUrl env db url with
  | none => (db, none)
  | some found =>
      let authOf (key : ProtSpaceKey) : Option Bytes := found.hosts.getLast?.bind (HostData.authOf key)
      match found.upward.findSome? PathData.protSpace, realm with
      | some key, _ => (db, authOf key)
      | none, none => (db, none)
      | none, some realm =>
          let key := found.node.spaceKey realm
          match authOf key with
          | none => (db, none)
          | some auth => (annotate env db url id (PathData.setSpace key), some auth)

/-- This is `urldb_set_cert_permissions`. -/
def setCertPermissions (env : Environment) (db : Database) (url : Nsurl) (permit : Bool) :
    Database :=
  let db := (addUrl env db url).1
  annotate env db url (fun h => { h with permitInvalidCerts := permit }) id

/-- Transport security is about hosts that have a name. -/
def hasHstsHost (env : Environment) (url : Nsurl) : Bool :=
  match url.components.host with
  | none => false
  | some host => !hostIsIpAddress env (cstr host) && host != []

/-- A policy takes effect. It never expires earlier than the one before, unless its age is
zero. -/
def HstsData.accept (now : Int) (sts : Http.StrictTransportSecurity) (hsts : HstsData) :
    HstsData :=
  if sts.maxAge = 0 then { expires := 0, includeSubDomains := false }
  else
    { expires := if hsts.expires < now + sts.maxAge.toNat then now + sts.maxAge.toNat
        else hsts.expires
      includeSubDomains := sts.includeSubDomains }

/-- This is `urldb_set_hsts_policy`. -/
def setHstsPolicy (env : Environment) (db : Database) (url : Nsurl) (header : Bytes) :
    Database × Bool :=
  if hasHstsHost env url then
    let db := (addUrl env db url).1
    match (findUrl env db url).bind fun found => found.hosts.getLast? with
    | none => (db, false)
    | some h =>
        if h.permitInvalidCerts then (db, true)
        else
          match Http.parseStrictTransportSecurity header with
          | none => (db, true)
          | some sts =>
              (annotate env db url (fun h => { h with hsts := h.hsts.accept env.now sts }) id, true)
  else (db, true)

/-- This is `urldb_get_hsts_enabled`, with the database where the URL was added. -/
def getHstsEnabled (env : Environment) (db : Database) (url : Nsurl) : Database × Bool :=
  if hasHstsHost env url then
    let db := (addUrl env db url).1
    match (findUrl env db url).map fun found => found.hosts.reverse with
    | some (h :: parents) =>
        (db, env.now < h.hsts.expires ||
          parents.any fun h => env.now < h.hsts.expires && h.hsts.includeSubDomains)
    | _ => (db, false)
  else (db, false)

/-- These calls change the data of one URL. -/
inductive UrlChange where
  | title (title : Option Bytes)
  | contentType (type : Int)
  | visit
  | resetVisits
  | persistence (persist : Bool)
  deriving DecidableEq, Repr

/-- The data of a node is changed. -/
def PathData.changed (now : Int) (change : UrlChange) (d : PathData) : PathData :=
  match change with
  | .title title => { d with urld := { d.urld with title } }
  | .contentType type => { d with urld := { d.urld with type } }
  | .visit => { d with urld := { d.urld with lastVisit := now, visits := d.urld.visits + 1 } }
  | .resetVisits => { d with urld := { d.urld with lastVisit := 0, visits := 0 } }
  | .persistence persistent => { d with persistent }

/-- These are `urldb_set_url_title`, `urldb_set_url_content_type`, `urldb_update_url_visit_data`,
`urldb_reset_url_visit_data` and `urldb_set_url_persistence`. -/
def changeUrl (env : Environment) (db : Database) (url : Nsurl) (change : UrlChange) : Database :=
  annotate env db url id (PathData.changed env.now change)

/-- The policy of a host that was loaded takes its place. -/
def loadHsts (env : Environment) (db : Database) (host : Bytes) (hsts : HstsData) : Database :=
  { db with hosts := db.hosts.modifyAt (fun h => { h with hsts }) (hostParts env host) }

/-- The data of a URL that was loaded takes its place. -/
def loadUrlData (env : Environment) (db : Database) (host : Bytes) (scheme : LwcString)
    (port : Nat) (path : Bytes) (urld : UrlData) : Database :=
  let change (h : HostData) : HostData :=
    let paths := h.paths.extend (PathData.isAt scheme port) (fun _ t => t)
      (fun d => { d with urld }) (segments path)
    { h with paths }
  { db with hosts := db.hosts.modifyAt change (hostParts env host) }

end Neosurf.Urldb
