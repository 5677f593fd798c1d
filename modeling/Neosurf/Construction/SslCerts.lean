/-
This file models how a certificate chain is put into the query of an `about:certificate` URL and
read from it.
-/

import Neosurf.Construction.Base64
import Neosurf.Construction.Nsoption
import Neosurf.Construction.Nsurl.Create

namespace Neosurf.SslCerts

/-- One certificate of `struct cert_chain` with its DER data. An error code read from text has any
value of its enumeration's integer type. -/
structure Cert where
  err : UInt32
  der : Bytes
  deriving DecidableEq, Repr

/-- The number of certificates is the depth of `struct cert_chain`. -/
abbrev CertChain := List Cert

def MAX_CERT_DEPTH : Nat := 10

def MIN_CERT_LEN : Nat := 64

def SSL_CERT_ERR_OK : UInt32 := 0

/-- A call answers with an error code of its own, of libnsutils or of nsurl, or writes past the end
of an array. -/
inductive CertFailure where
  | error (res : Nserror)
  | nsutils
  | url (failure : NsurlFailure)
  | overflow
  deriving DecidableEq, Repr

/-- This is `strtoul` with the base 10. -/
def strtoul10 (s : Bytes) : Nat :=
  let (negative, digits) := splitSign (s.dropWhile isSpace)
  unsignedLong negative (readDigits 10 digits)

/-- This is `process_query_section` on one part of the query. The number of an error code ends before
the next part. -/
def processQuerySection (part : Bytes) (chain : CertChain) : Except CertFailure CertChain :=
  if 5 + MIN_CERT_LEN < part.length ∧ startsWith (str "cert=") part then
    if chain.length < MAX_CERT_DEPTH then
      .ok (chain ++ [{ err := SSL_CERT_ERR_OK, der := Base64.decodeUrl (part.drop 5) }])
    else .error .overflow
  else if 8 < part.length ∧ startsWith (str "certerr=") part then
    .ok (chain.modify (chain.length - 1) fun cert =>
      { cert with err := (strtoul10 (part.drop 8)).toUInt32 })
  else .ok chain

/-- This is `cert_chain_from_query`. -/
def certChainFromQuery (url : Nsurl) : Except CertFailure CertChain :=
  match Nsurl.get url Nsurl.QUERY with
  | .error failure => .error (.url failure)
  | .ok (querystr, querylen) =>
      if querylen < MIN_CERT_LEN then .error (.error .needData)
      else do
        let chain ← (querystr.splitOn (chr '&')).foldlM
          (fun chain part => processQuerySection part chain) []
        if chain.length = 0 then .error (.error .invalid) else .ok chain

/-- So many bytes `cert_chain_to_query` allocates. -/
def queryAllocSize (chain : CertChain) : Nat :=
  20 + (chain.map fun cert =>
    7 + 4 * ((cert.der.length + 2) / 3) + if cert.err ≠ SSL_CERT_ERR_OK then 20 else 0).sum

/-- This is `snprintf` at the end of the string, with the check of what it answers. -/
def printEnd (allocsize : Nat) (text urlstr : Bytes) : Except CertFailure Bytes :=
  if allocsize - urlstr.length ≤ text.length then .error (.error .unknown)
  else .ok (urlstr ++ text)

/-- This is `nsu_base64_encode_url` at the end of the string. -/
def encodeEnd (allocsize : Nat) (der urlstr : Bytes) : Except CertFailure Bytes :=
  if allocsize - urlstr.length < 4 * ((der.length + 2) / 3) then .error .nsutils
  else .ok (urlstr ++ Base64.encodeUrl der)

/-- The number of an `enum` is printed as an `int`. -/
def printErr (err : UInt32) : Bytes := printInt (toInt32 err.toNat)

/-- One round of the loop in `cert_chain_to_query`. -/
def putCert (allocsize : Nat) (urlstr : Bytes) (cert : Cert) : Except CertFailure Bytes := do
  let urlstr ← printEnd allocsize (str "&cert=") urlstr
  let urlstr ← encodeEnd allocsize cert.der urlstr
  if cert.err ≠ SSL_CERT_ERR_OK then
    printEnd allocsize (str "&certerr=" ++ printErr cert.err) urlstr
  else .ok urlstr

/-- The string that `cert_chain_to_query` has written when it ends the loop. -/
def chainText (chain : CertChain) : Except CertFailure Bytes :=
  chain.foldlM (putCert (queryAllocSize chain)) (str "about:certificate")

/-- This is `cert_chain_to_query`. The final NUL overwrites the question mark of an empty chain. -/
def certChainToQuery (junk : Nsurl.Buff) (chain : CertChain) : Except CertFailure Nsurl := do
  let urlstr ← chainText chain
  match Nsurl.nsurlCreate junk (urlstr.set 17 (chr '?')) with
  | .error failure => .error (.url failure)
  | .ok url => .ok url

end Neosurf.SslCerts
