/-
This file models how `content/urldb.c` saves the URLs of the database to a file and loads them.
-/

import Neosurf.Construction.Llcache.Metadata
import Neosurf.Construction.Bytes
import Neosurf.Construction.Urldb.Operations

namespace Neosurf.Urldb

def MIN_URL_FILE_VERSION : Int := 106

def URL_FILE_VERSION : Int := 107

/-- A text that is printed with `%s`, and the end of its line. -/
def line (text : Bytes) : Bytes := cstr text ++ [LF]

/-- A URL is saved when it is persistent or was visited after this time. -/
def PathData.isSaved (expiry : Int) (d : PathData) : Bool :=
  d.persistent || expiry < d.urld.lastVisit && d.urld.visits != 0

/-- A title is saved without control characters and without spaces at its end. -/
def tidyTitle (title : Bytes) : Bytes :=
  let s := (cstr title).map fun c => if c < 32 then chr ' ' else c
  s.take 1 ++ ((s.drop 1).reverse.dropWhile (· == chr ' ')).reverse

/-- The eight lines of a URL. -/
def writeUrl (path : Bytes) (d : PathData) : Bytes :=
  line d.scheme ++ line (if d.port = 0 then [] else printInt (toInt32 d.port)) ++ line path ++
    line (printInt (toInt32 d.urld.visits.toNat)) ++ line (printInt d.urld.lastVisit) ++
    line (printInt (toInt32 d.urld.type)) ++ line [] ++ line (tidyTitle (d.urld.title.getD []))

/-- This is `urldb_write_paths`, with the path buffer that it leaves. Only nodes without children
are saved. -/
def writePaths (expiry : Int) : Bytes → Paths → Bytes × Bytes
  | path, .nil => ([], path)
  | path, .cons d .nil next =>
      let segment := cstr d.segment
      let own := path ++ segment
      let text := if d.isSaved expiry then writeUrl own d else []
      let (more, path) := writePaths expiry (own.take (own.length - segment.length)) next
      (text ++ more, path)
  | path, .cons d (.cons e below after) next =>
      let segment := cstr d.segment
      let (text, inner) := writePaths expiry (path ++ segment ++ [chr '/']) (.cons e below after)
      let own := inner.take (inner.length - 1)
      let (more, path) := writePaths expiry (own.take (own.length - segment.length)) next
      (text ++ more, path)

/-- This is `urldb_count_urls`. -/
def countUrls (expiry : Int) : Paths → Nat
  | .nil => 0
  | .cons d .nil next => (if d.isSaved expiry then 1 else 0) + countUrls expiry next
  | .cons _ (.cons e below after) next =>
      countUrls expiry (.cons e below after) + countUrls expiry next

/-- The name of a host as far as it fits in its buffer. -/
def hostText (chain : Chain) : Bytes := ([chr '.'].intercalate (chain.map cstr)).take 255

/-- The time before which URLs are not saved. -/
def expiryTime (env : Environment) (expireUrl : Int) : Int :=
  env.now - toInt32 (60 * 60 * 24 * expireUrl)

/-- The policy of a host that is saved. -/
def savedHsts (expiry : Int) (h : HostData) : HstsData :=
  if expiry < h.hsts.expires then h.hsts else {}

/-- The lines before the URLs of a host. -/
def hostHeader (chain : Chain) (hsts : HstsData) (count : Nat) : Bytes :=
  hostText chain ++ str " " ++ printInt (if hsts.includeSubDomains then 1 else 0) ++ str " " ++
    line (printInt hsts.expires) ++ line (printInt (toInt32 count))

/-- This is the part of `urldb_save_search_tree` for one host. -/
def writeHost (expiry : Int) (db : Database) (chain : Chain) : Bytes :=
  let h := hostAt db chain
  let hsts := savedHsts expiry h
  let count := countUrls expiry h.paths
  if 0 < count then hostHeader chain hsts count ++ (writePaths expiry (str "/") h.paths).1
  else if hsts.expires ≠ 0 then hostHeader chain hsts 0
  else []

/-- This is `urldb_save_search_tree`. -/
def writeTree (expiry : Int) (db : Database) : AATree Chain → Bytes
  | .empty => []
  | .node _ chain left right =>
      writeTree expiry db left ++ writeHost expiry db chain ++ writeTree expiry db right

/-- This is `urldb_save`: the text of the file, where URLs expire after so many days. -/
def saveUrls (env : Environment) (expireUrl : Int) (db : Database) : Bytes :=
  line (printInt URL_FILE_VERSION) ++
    (List.range NUM_SEARCH_TREES).flatMap fun i =>
      writeTree (expiryTime env expireUrl) db (db.searchTrees i)

def MAXIMUM_URL_LENGTH : Nat := 4096

/-- A time that cannot be read stays as it was. -/
def readTime (text : Bytes) (before : Int) : Int :=
  match Llcache.snptimet text with
  | .ok time => time
  | .error _ => before

/-- The lines after the path of a URL change its data. The end of the file ends them. -/
def readUrlData (file : Bytes) (u : UrlData) : UrlData × Bytes :=
  match fgets MAXIMUM_URL_LENGTH file with
  | none => (u, [])
  | some (s, file) =>
      let u := { u with visits := UInt32.ofNat (atoi (cstr s) % 2 ^ 32).toNat }
      match fgets MAXIMUM_URL_LENGTH file with
      | none => (u, [])
      | some (s, file) =>
          let u := { u with lastVisit := readTime (cstr s) u.lastVisit }
          match fgets MAXIMUM_URL_LENGTH file with
          | none => (u, [])
          | some (s, file) =>
              let u := { u with type := atoi (cstr s) }
              match fgets MAXIMUM_URL_LENGTH file with
              | none => (u, [])
              | some (_, file) =>
                  match fgets MAXIMUM_URL_LENGTH file with
                  | none => (u, [])
                  | some (s, file) =>
                      (if chomp s = [] then u else { u with title := some (chomp s) }, file)

/-- The data of the node at the end of a path is changed. -/
def updateUrlData (parts : List Bytes) (scheme : LwcString) (port : Nat) (path : Bytes)
    (change : UrlData → UrlData) (db : Database) : Database :=
  let changeHost (h : HostData) : HostData :=
    let paths := h.paths.extend (PathData.isAt scheme port) (fun _ t => t)
      (fun d => { d with urld := change d.urld }) (segments path)
    { h with paths }
  { db with hosts := db.hosts.modifyAt changeHost parts }

/-- This is the part of `urldb_load` for one URL. A URL that cannot be made stops it. -/
def loadEntry (env : Environment) (junk : Bytes → Nsurl.Buff) (host : Bytes) (file : Bytes)
    (db : Database) : Database × Except Nserror Bytes :=
  match fgets 64 file with
  | none => (db, .ok [])
  | some (scheme, file) =>
      match fgets 10 file with
      | none => (db, .ok [])
      | some (ports, file) =>
          match fgets MAXIMUM_URL_LENGTH file with
          | none => (db, .ok [])
          | some (rest, file) =>
              let text := loadedText host (chomp scheme) (chomp ports) (chomp rest)
              match Nsurl.nsurlCreate (junk text) text with
              | .error _ => (db, .error .nomem)
              | .ok url =>
                  match pathQuery url, url.components.scheme with
                  | some path, some scheme =>
                      let port := (atoi (chomp ports) % 2 ^ 32).toNat
                      let db := addPath (hostParts env host) scheme port path (setUrl url)
                        (bloomInsert db url.hash)
                      (updateUrlData (hostParts env host) scheme port path
                        (fun u => (readUrlData file u).1) db, .ok (readUrlData file {}).2)
                  | _, _ => (bloomInsert db url.hash, .error .nomem)

/-- The URLs of a host are loaded one after the other. -/
def loadEntries (env : Environment) (junk : Bytes → Nsurl.Buff) (host : Bytes) :
    Nat → Bytes → Database → Database × Except Nserror Bytes
  | 0, file, db => (db, .ok file)
  | urls + 1, file, db =>
      match loadEntry env junk host file db with
      | (db, .ok file) => loadEntries env junk host urls file db
      | stopped => stopped

/-- The line of a host also has its policy from version 107 on. -/
def readHost (version : Int) (text : Bytes) : Bytes × HstsData :=
  if version < 107 then (text, {})
  else
    let flag := (text.dropWhile (· ≠ chr ' ')).dropWhile (· == chr ' ')
    let time := (flag.dropWhile (· ≠ chr ' ')).dropWhile (· == chr ' ')
    (text.takeWhile (· ≠ chr ' '),
      { expires := readTime time 0, includeSubDomains := byteAt flag 0 == chr '1' })

/-- So many lines are skipped. -/
def skipLines : Nat → Bytes → Bytes
  | 0, file => file
  | count + 1, file =>
      match fgets MAXIMUM_URL_LENGTH file with
      | none => []
      | some (_, file) => skipLines count file

/-- The loop of `urldb_load` over the hosts. Every round takes a line. -/
def loadHosts (env : Environment) (junk : Bytes → Nsurl.Buff) (version : Int) :
    Nat → Bytes → Database → Database × Nserror
  | 0, _, db => (db, .ok)
  | rounds + 1, file, db =>
      match fgets 256 file with
      | none => (db, .ok)
      | some (text, file) =>
          if chomp text = [] then
            match fgets MAXIMUM_URL_LENGTH file with
            | none => (db, .ok)
            | some (count, file) =>
                loadHosts env junk version rounds
                  (skipLines (toInt32 (8 * atoi (cstr count))).toNat file) db
          else
            let (host, hsts) := readHost version (chomp text)
            let db := loadHsts env (addHost env db host) host hsts
            match fgets MAXIMUM_URL_LENGTH file with
            | none => (db, .ok)
            | some (count, file) =>
                match loadEntries env junk host (atoi (cstr count)).toNat file db with
                | (db, .error failure) => (db, failure)
                | (db, .ok file) => loadHosts env junk version rounds file db

/-- This is `urldb_load` of a file with this text. What was in the memory for a URL is known by
its text. -/
def loadUrls (env : Environment) (junk : Bytes → Nsurl.Buff) (file : Bytes) (db : Database) :
    Database × Nserror :=
  let db := { db with bloom := some (db.bloom.getD []) }
  match fgets MAXIMUM_URL_LENGTH file with
  | none => (db, .needData)
  | some (s, file) =>
      let version := atoi (cstr s)
      if version < MIN_URL_FILE_VERSION ∨ URL_FILE_VERSION < version then (db, .invalid)
      else loadHosts env junk version (file.length + 1) file db

end Neosurf.Urldb
