/-
This file models the path trees and the host tree of `content/urldb.c`, and the search trees over
the hosts.
-/

import Neosurf.Construction.Urldb.Cookie
import Neosurf.ToMathlib.AATree
import Neosurf.ToMathlib.SiblingTree.Basic

namespace Neosurf.Urldb

/-- This is `struct url_internal_data`. -/
structure UrlData where
  title : Option Bytes := none
  visits : UInt32 := 0
  lastVisit : Int := 0
  type : Int := 0
  deriving DecidableEq, Repr

/-- No two protection spaces of a host share their scheme, port and realm, so that these stand
for a pointer to one. -/
structure ProtSpaceKey where
  scheme : LwcString
  port : Nat
  realm : Bytes
  deriving DecidableEq, Repr

/-- This is `struct path_data` without its links. -/
structure PathData where
  url : Option Nsurl := none
  scheme : LwcString
  port : Nat
  segment : Bytes
  cookies : List Cookie := []
  urld : UrlData := {}
  persistent : Bool := false
  protSpace : Option ProtSpaceKey := none
  deriving DecidableEq, Repr

/-- A node is told apart by its scheme, its port and its segment. -/
def PathData.key (d : PathData) : LwcString × Nat × Bytes := (d.scheme, d.port, d.segment)

/-- The paths below a host, in the order of their segments. -/
abbrev Paths := SiblingTree PathData

/-- A node carries this segment, scheme and port. -/
def PathData.isAt (scheme : LwcString) (port : Nat) (segment : Bytes) (d : PathData) : Bool :=
  let answer := lwcStringIsequal scheme d.scheme
  d.segment == segment && answer.1 == lwcErrorOk && answer.2 && d.port == port

/-- The comparison of a lookup only reads as many characters as it looks for. -/
def PathData.matches (scheme : LwcString) (port : Nat) (segment : Bytes) (d : PathData) : Bool :=
  let answer := lwcStringIsequal d.scheme scheme
  startsWith segment d.segment && answer.1 == lwcErrorOk && answer.2 && d.port == port

namespace Paths

/-- This is the insertion of `urldb_add_path_node`: before the first greater sibling. -/
def addNode (new : PathData) : Paths → Paths
  | .nil => .cons new .nil .nil
  | .cons e children next =>
      if strcmp e.segment new.segment = .gt then .cons new .nil (.cons e children next)
      else .cons e children (addNode new next)

/-- A missing node is added. -/
def ensure (scheme : LwcString) (port : Nat) (segment : Bytes) (t : Paths) : Paths :=
  if t.has (PathData.isAt scheme port segment) then t
  else addNode { scheme, port, segment } t

/-- This is the loop of `urldb_add_path`, with the change of its last node. -/
def addPath (scheme : LwcString) (port : Nat) (change : PathData → PathData)
    (path : List Bytes) (t : Paths) : Paths :=
  t.extend (PathData.isAt scheme port) (ensure scheme port) change path

end Paths

/-- One level of a path tree: the siblings and the node above them, unless that is
the host. -/
structure Level where
  parent : Option PathData
  siblings : Paths
  deriving DecidableEq, Repr

/-- This is the loop of `urldb_match_path`. It answers with the node, its level and all
levels above. -/
def matchPath (scheme : LwcString) (port : Nat) (level : Level) (above : List Level) :
    Paths → List Bytes → Option (PathData × List Level)
  | .nil, _ => none
  | .cons _ _ _, [] => none
  | .cons d children next, segment :: rest =>
      if d.matches scheme port segment then
        if rest = [] then some (d, level :: above)
        else matchPath scheme port ⟨some d, children⟩ (level :: above) children rest
      else matchPath scheme port level above next (segment :: rest)

/-- The segments of a path and query, where a slash at the start is skipped. -/
def segments (pathQuery : Bytes) : List Bytes :=
  (if byteAt pathQuery 0 = chr '/' then pathQuery.drop 1 else pathQuery).splitOn (chr '/')

/-- This is `struct hsts_data`. -/
structure HstsData where
  expires : Int := 0
  includeSubDomains : Bool := false
  deriving DecidableEq, Repr

/-- This is `struct prot_space_data` without its link. -/
structure ProtSpace extends ProtSpaceKey where
  auth : Bytes
  deriving DecidableEq, Repr

/-- This is `struct host_part` without its links. The cookies of its root path are those
of the domain. -/
structure HostData where
  part : Bytes
  cookies : List Cookie := []
  paths : Paths := .nil
  permitInvalidCerts : Bool := false
  hsts : HstsData := {}
  protSpaces : List ProtSpace := []
  deriving DecidableEq, Repr

/-- The host parts, the last label of every host at the top. -/
abbrev Hosts := SiblingTree HostData

/-- A host part has this name. -/
def HostData.isNamed (part : Bytes) (h : HostData) : Bool := strcasecmp part h.part == .eq

/-- These characters may stand in an IP address. -/
def isIpChar (c : Byte) : Bool := (str "0123456789abcdefABCDEF[].:").contains c

/-- This is `urldb__host_is_ip_address`. A slash ends the host. -/
def hostIsIpAddress (env : Environment) (host : Bytes) : Bool :=
  let sane := host.takeWhile (· ≠ chr '/')
  if !sane.all isIpChar then false
  else if env.inetAton sane then sane.count (chr '.') == 3
  else if sane.length < 6 ∨ byteAt sane 0 ≠ chr '[' ∨ byteAt sane (sane.length - 1) ≠ chr ']' then
    false
  else env.inetPton6 (((sane.drop 1).take (sane.length - 2)).take 63)

namespace Hosts

/-- This is `urldb_add_host_node` for a missing part: it becomes the first child. -/
def ensure (part : Bytes) (t : Hosts) : Hosts :=
  if t.has (HostData.isNamed part) then t else .cons { part } .nil t

/-- The loop of `urldb_add_host` adds the missing parts, the last label first. -/
def add (parts : List Bytes) (t : Hosts) : Hosts := t.extend HostData.isNamed ensure id parts

/-- The hosts on the way down these parts. -/
def walk (parts : List Bytes) (t : Hosts) : Option (List HostData) :=
  SiblingTree.walk HostData.isNamed parts t

/-- The host at the end of these parts is changed. -/
def modifyAt (change : HostData → HostData) (parts : List Bytes) (t : Hosts) : Hosts :=
  t.extend HostData.isNamed (fun _ t => t) change parts

end Hosts

/-- The parts of a host from the root of the tree. An IP address is one part, and the
buffer cuts any other host. -/
def hostParts (env : Environment) (host : Bytes) : List Bytes :=
  if hostIsIpAddress env host then [host] else ((host.take 255).splitOn (chr '.')).reverse

def ST_IP : Nat := 0

def ST_EE : Nat := 1

def ST_DN : Nat := 2

/-- This is `urldb_get_search_tree_direct`. -/
def searchTreeOf (env : Environment) (host : Bytes) : Nat :=
  if hostIsIpAddress env host then ST_IP
  else if isAlpha (byteAt host 0) then ST_DN + (toLower (byteAt host 0) - chr 'a').toNat
  else ST_EE

/-- A search tree refers to a host by its parts, from the host up to the root. -/
abbrev Chain := List Bytes

/-- This is `urldb_search_match_host`. -/
def searchMatchHost (a b : Chain) : Ordering := List.compareLex strcasecmp a b

/-- This is `urldb_search_match_string`. An IP address is compared with the first part. -/
def searchMatchString (env : Environment) (b : Bytes) (a : Chain) : Ordering :=
  if hostIsIpAddress env b then strcasecmp (a.headD []) b
  else List.compareLex strcasecmp a (b.splitOn (chr '.'))

end Neosurf.Urldb
