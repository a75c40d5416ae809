import Askr.Server.Request

/-!
# The variables PHP is given

`cgi.rs`: a request becomes the `$_SERVER` variables of a CGI request. Every header becomes an
`HTTP_*` variable, lines of one name joined, unless `header_policy` keeps it out; which forwarding
headers it lets through depends on whether the peer is a trusted proxy.

The text of an address and the reading of one are left open (`NetText`), and so are the application
of a document root and the version of the protocol. The parts of the request that an upload fills
are left out.
-/

namespace Askr.Server

open Bytes Policy List

/-! ## The client -/

/-- `std::net`: how an address is printed, and what is read of one hop of `X-Forwarded-For`. -/
structure NetText where
  print : IpAddr → Bytes
  parse : Bytes → Option IpAddr

theorem lower_forwardedFor :
    toAsciiLowercase (ofString "x-forwarded-for") = ofString "x-forwarded-for" := by decide

/-- `client_ip_from`: the last address of the chain that is not a trusted proxy itself. -/
def clientIpFrom (net : NetText) (headers : HeaderMap) (peer : IpAddr) (trusted : List Cidr) :
    IpAddr :=
  if !peerIsTrusted peer trusted then peer
  else
    let chain := (((getAll headers (ofString "x-forwarded-for")).filterMap toStr).flatMap
      fun v => (v.splitOn 44).map trim).filter (· ≠ [])
    (chain.reverse.findSome? fun hop =>
      (net.parse hop).filter fun ip => !trusted.any fun c => cidrContains c ip).getD peer

/-! ## The header policy -/

/-- `cgi::Rule`: why a header does not become a variable as sent. -/
inductive DropRule where
  | contentMeta
  | httpoxy
  | authoritativeHost
  | untrustedForwardedFor
  | untrustedForwarding
  | underscore
deriving DecidableEq

inductive Disposition where
  | pass (join : Bytes)
  | drop (rule : DropRule)
  | forwardedFor
deriving DecidableEq

def isForwardingClaim (name : Bytes) : Bool :=
  name == ofString "x-real-ip" || name == ofString "forwarded" ||
    (name.length > (ofString "x-forwarded-").length && (ofString "x-forwarded-").isPrefixOf name)

def headerPolicy (name : Bytes) (peerTrusted : Bool) : Disposition :=
  if name = ofString "content-type" ∨ name = ofString "content-length" then .drop .contentMeta
  else if name = ofString "proxy" then .drop .httpoxy
  else if name = ofString "host" then .drop .authoritativeHost
  else if name = ofString "x-forwarded-for" then
    if peerTrusted then .forwardedFor else .drop .untrustedForwardedFor
  else if !peerTrusted && isForwardingClaim name then .drop .untrustedForwarding
  else if 95 ∈ name then .drop .underscore
  else if name = ofString "cookie" then .pass (ofString "; ")
  else .pass (ofString ", ")

/-! ## `build_request` -/

/-- `$_SERVER`. -/
abbrev Vars := List (Bytes × Bytes)

/-- `to_ascii_uppercase` and `replace('-', "_")`, on one byte. -/
def varByte (b : UInt8) : UInt8 :=
  if b = 45 then 95 else if 97 ≤ b ∧ b ≤ 122 then b - 32 else b

def httpName (name : Bytes) : Bytes := ofString "HTTP_" ++ name.map varByte

/-- Append to the first variable of the name, or add one. -/
def addVar (vars : Vars) (name join value : Bytes) : Vars :=
  match vars with
  | [] => [(name, value)]
  | (k, v) :: r =>
    if k = name then (k, v ++ join ++ value) :: r else (k, v) :: addVar r name join value

/-- One turn of the loop over the headers. -/
def addHeader (peerTrusted : Bool) (vars : Vars) (h : Header) : Vars :=
  match headerPolicy h.name peerTrusted with
  | .pass join =>
    match toStr h.value with
    | some v => addVar vars (httpName h.name) join v
    | none => vars
  | _ => vars

structure Context where
  docroot : Bytes
  script : Bytes
  scriptName : Bytes
  peer : IpAddr
  peerPort : Nat
  https : Bool
  serverPort : Nat
  trustedProxies : List Cidr

/-- What is left open of a request's surroundings. -/
structure Around where
  net : NetText
  protocol : Bytes
  now : Nat
  forDocroot : Bytes → Ns.App

/-- The variables that are set before the headers are looked at. -/
def baseVars (around : Around) (ctx : Context) (req : Req) (body : Bytes) : Vars :=
  let query := req.uri.query.getD []
  let rawHost := (effectiveHost req.headers req.uri).getD (ofString "localhost")
  let client := clientIpFrom around.net req.headers ctx.peer ctx.trustedProxies
  [(ofString "REQUEST_METHOD", req.method),
    (ofString "REQUEST_URI", req.uri.path ++ (req.uri.query.map (63 :: ·)).getD []),
    (ofString "QUERY_STRING", query),
    (ofString "PATH_INFO", req.uri.path),
    (ofString "SCRIPT_NAME", ctx.scriptName),
    (ofString "PHP_SELF", ctx.scriptName),
    (ofString "SCRIPT_FILENAME", ctx.script),
    (ofString "DOCUMENT_ROOT", ctx.docroot),
    (ofString "SERVER_PROTOCOL", around.protocol),
    (ofString "GATEWAY_INTERFACE", ofString "CGI/1.1"),
    (ofString "SERVER_SOFTWARE", ofString "askr"),
    (ofString "SERVER_NAME", hostWithoutPort rawHost),
    (ofString "SERVER_PORT", natBytes ctx.serverPort),
    (ofString "SERVER_ADDR", ofString "127.0.0.1"),
    (ofString "HTTP_HOST", rawHost),
    (ofString "REMOTE_ADDR", around.net.print client),
    (ofString "REMOTE_PORT", natBytes ctx.peerPort),
    (ofString "ASKR_PEER_ADDR", around.net.print ctx.peer),
    (ofString "REQUEST_TIME", natBytes around.now)] ++
  (if ctx.https then [(ofString "HTTPS", ofString "on")] else []) ++
  ((getStr req.headers (ofString "content-type")).map fun ct =>
    (ofString "CONTENT_TYPE", ct)).toList ++
  (if body = [] then [] else [(ofString "CONTENT_LENGTH", natBytes body.length)])

def serverVars (around : Around) (ctx : Context) (req : Req) (body : Bytes) : Vars :=
  let trusted := peerIsTrusted ctx.peer ctx.trustedProxies
  req.headers.foldl (addHeader trusted) (baseVars around ctx req body) ++
    if req.headers.any fun h => headerPolicy h.name trusted = .forwardedFor then
      [(ofString "HTTP_X_FORWARDED_FOR",
        around.net.print (clientIpFrom around.net req.headers ctx.peer ctx.trustedProxies))]
    else []

/-- `askr_php::Request`. -/
structure PhpRequest where
  scriptFilename : Bytes
  method : Bytes
  queryString : Bytes
  contentType : Option Bytes
  cookie : Option Bytes
  body : Bytes
  serverVars : Vars
  namesp : Ns.App

def buildRequest (around : Around) (ctx : Context) (req : Req) (body : Bytes) : PhpRequest :=
  let cookie := (ofString "; ").intercalate
    ((getAll req.headers (ofString "cookie")).filterMap toStr)
  { scriptFilename := ctx.script
    method := req.method
    queryString := req.uri.query.getD []
    contentType := getStr req.headers (ofString "content-type")
    cookie := if cookie = [] then none else some cookie
    body
    serverVars := serverVars around ctx req body
    namesp := around.forDocroot ctx.docroot }

/-! ## Which variables there are -/

def Vars.names (vars : Vars) : List Bytes := vars.map Prod.fst

theorem mem_names_addVar {vars : Vars} {name join value k : Bytes} :
    k ∈ (addVar vars name join value).names ↔ k ∈ vars.names ∨ k = name := by
  induction vars with
  | nil => simp [addVar, Vars.names]
  | cons p r ih =>
    simp only [Vars.names] at ih
    rw [addVar]
    split
    · rename_i hk
      simp only [Vars.names, map_cons, mem_cons, hk]
      grind
    · simp only [Vars.names, map_cons, mem_cons, ih]
      grind

theorem addVar_of_notMem {vars : Vars} {name : Bytes} (join value : Bytes)
    (h : name ∉ vars.names) : addVar vars name join value = vars ++ [(name, value)] := by
  induction vars with
  | nil => rfl
  | cons p r ih =>
    rw [Vars.names, map_cons, mem_cons, not_or] at h
    rw [addVar, if_neg (Ne.symm h.1), ih h.2, cons_append]

def fixedNames : List Bytes :=
  ["REQUEST_METHOD", "REQUEST_URI", "QUERY_STRING", "PATH_INFO", "SCRIPT_NAME", "PHP_SELF",
    "SCRIPT_FILENAME", "DOCUMENT_ROOT", "SERVER_PROTOCOL", "GATEWAY_INTERFACE", "SERVER_SOFTWARE",
    "SERVER_NAME", "SERVER_PORT", "SERVER_ADDR", "HTTP_HOST", "REMOTE_ADDR", "REMOTE_PORT",
    "ASKR_PEER_ADDR", "REQUEST_TIME"].map ofString

theorem names_baseVars (around : Around) (ctx : Context) (req : Req) (body : Bytes) :
    (baseVars around ctx req body).names = fixedNames ++
      ((if ctx.https then [ofString "HTTPS"] else []) ++
        (((getStr req.headers (ofString "content-type")).map fun _ =>
          ofString "CONTENT_TYPE").toList ++
        (if body = [] then [] else [ofString "CONTENT_LENGTH"]))) := by
  rw [Vars.names, baseVars]
  cases getStr req.headers (ofString "content-type") <;> by_cases hb : body = [] <;>
    by_cases hs : ctx.https <;> simp [fixedNames, hb, hs]

theorem mem_names_baseVars {around : Around} {ctx : Context} {req : Req} {body k : Bytes} :
    k ∈ (baseVars around ctx req body).names ↔ k ∈ fixedNames ∨
      (ctx.https = true ∧ k = ofString "HTTPS") ∨
      ((getStr req.headers (ofString "content-type")).isSome ∧ k = ofString "CONTENT_TYPE") ∨
      (body ≠ [] ∧ k = ofString "CONTENT_LENGTH") := by
  rw [names_baseVars, mem_append, mem_append, mem_append]
  cases getStr req.headers (ofString "content-type") <;> by_cases hb : body = [] <;>
    by_cases hs : ctx.https <;> simp [hb, hs]

/-- Does the header become a variable? -/
def Becomes (peerTrusted : Bool) (h : Header) : Prop :=
  (∃ join, headerPolicy h.name peerTrusted = .pass join) ∧ (toStr h.value).isSome

theorem mem_names_addHeader {trusted : Bool} {vars : Vars} {h : Header} {k : Bytes} :
    k ∈ (addHeader trusted vars h).names ↔
      k ∈ vars.names ∨ (Becomes trusted h ∧ k = httpName h.name) := by
  rw [addHeader, Becomes]
  split
  · rename_i join hpass
    cases hv : toStr h.value with
    | some v => simp [hpass, mem_names_addVar]
    | none => simp
  · rename_i hpass
    have hno : ¬ ∃ join, headerPolicy h.name trusted = .pass join := fun ⟨join, hj⟩ => hpass join hj
    simp [hno]

theorem mem_names_headers {trusted : Bool} {headers : HeaderMap} {vars : Vars} {k : Bytes} :
    k ∈ (headers.foldl (addHeader trusted) vars).names ↔
      k ∈ vars.names ∨ ∃ h ∈ headers, Becomes trusted h ∧ k = httpName h.name := by
  induction headers generalizing vars with
  | nil => simp
  | cons h headers ih =>
    rw [foldl_cons, ih, mem_names_addHeader, exists_mem_cons_iff, or_assoc]

/-- The byte of a header name that a byte of a variable stands for. -/
def nameByte (b : UInt8) : UInt8 := if b = 95 then 45 else lowerByte b

theorem nameByte_varByte {b : UInt8} (hlower : lowerByte b = b) (hb : b ≠ 95) :
    nameByte (varByte b) = b := by
  rw [varByte]
  split
  · rename_i h
    rw [h]
    decide
  · split
    · rename_i hletter
      have h1 := UInt8.le_iff_toNat_le.1 hletter.1
      have h2 := UInt8.le_iff_toNat_le.1 hletter.2
      simp only [UInt8.reduceToNat] at h1 h2
      have hle : (32 : UInt8) ≤ b := by
        simp only [UInt8.le_iff_toNat_le, UInt8.reduceToNat]
        omega
      have hsub : (b - 32).toNat = b.toNat - 32 := UInt8.toNat_sub_of_le _ _ hle
      rw [nameByte, if_neg, lowerByte, if_pos]
      · exact UInt8.sub_add_cancel b 32
      · simp only [UInt8.le_iff_toNat_le, hsub, UInt8.reduceToNat]
        omega
      · intro h
        have := congrArg UInt8.toNat h
        simp only [hsub, UInt8.reduceToNat] at this
        omega
    · rw [nameByte, if_neg hb, hlower]

theorem name_of_httpName {h : Header} {name : Bytes} (hname : 95 ∉ h.name)
    (hvar : httpName h.name = httpName name) (hlower : toAsciiLowercase name = name)
    (hname' : 95 ∉ name) : h.name = name := by
  have hback : ∀ n : Bytes, toAsciiLowercase n = n → 95 ∉ n → (n.map varByte).map nameByte = n := by
    intro n hl hn
    rw [map_map]
    conv_rhs => rw [← map_id n]
    refine map_congr_left fun b hb => ?_
    refine nameByte_varByte ?_ fun h => hn (h ▸ hb)
    have := map_inj_left.1 (hl.trans (map_id n).symm) b hb
    exact this
  have hmap : h.name.map varByte = name.map varByte := append_cancel_left hvar
  rw [← hback h.name h.lower hname, hmap, hback name hlower hname']

theorem Becomes.no_underscore {trusted : Bool} {h : Header} (hb : Becomes trusted h) :
    95 ∉ h.name := by
  obtain ⟨⟨join, hpass⟩, -⟩ := hb
  intro hmem
  rw [headerPolicy] at hpass
  repeat' split at hpass
  all_goals contradiction

end Askr.Server
