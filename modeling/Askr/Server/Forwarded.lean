import Askr.Server.Untrusted

/-!
# Who chooses the address of the client

`client_ip_from` walks the entries of `X-Forwarded-For` from the right. Each proxy appends the
address it was called from, so the first entry that is not a trusted proxy's address is the
client's, and what is left of it the client may have sent.

The walk passes over what does not read as an address, though. So the client's entries decide
nothing exactly when the first entry from the right that is not a trusted proxy's address is an
address (`Readable`, `client_confined_iff`).
-/

namespace Askr.Server

open Bytes Policy List Option

/-- The entries of one line; `none` is a line that is not text. -/
def lineHops (v : Bytes) : List (Option Bytes) :=
  match toStr v with
  | some t => (((t.splitOn 44).map trim).filter (· ≠ [])).map some
  | none => [none]

/-- The entries of all lines, the last one first. -/
def hops (headers : HeaderMap) : List (Option Bytes) :=
  ((getAll headers (ofString "x-forwarded-for")).flatMap lineHops).reverse

section

variable (net : NetText) (trusted : List Cidr)

/-- The entry is the address of a trusted proxy. -/
def isProxy (hop : Option Bytes) : Bool :=
  (hop.bind net.parse).any fun ip => trusted.any fun c => cidrContains c ip

/-- What the walk takes from an entry. -/
def taken (hop : Option Bytes) : Option IpAddr :=
  (hop.bind net.parse).filter fun ip => !trusted.any fun c => cidrContains c ip

/-- Of what comes from the chain every entry to its right, and the peer, is a trusted proxy's
address. -/
def Vouched (headers : HeaderMap) (peer : IpAddr) : Prop :=
  clientIpFrom net headers peer trusted = peer ∨
    peerIsTrusted peer trusted = true ∧ ∃ r x l, hops headers = r ++ x :: l ∧
      x.bind net.parse = some (clientIpFrom net headers peer trusted) ∧
      ∀ y ∈ r, isProxy net trusted y = true

/-- What is left of the first entry from the right that is not a trusted proxy's address does not
matter. -/
def Confined (headers : HeaderMap) (peer : IpAddr) : Prop :=
  ∀ r x l, hops headers = r ++ x :: l → (∀ y ∈ r, isProxy net trusted y = true) →
    isProxy net trusted x = false → ∀ headers' l', hops headers' = r ++ x :: l' →
      clientIpFrom net headers' peer trusted = clientIpFrom net headers peer trusted

/-- The first entry from the right that is not a trusted proxy's address is an address. -/
def Readable (headers : HeaderMap) : Prop :=
  ∀ x ∈ (hops headers).find? fun hop => !isProxy net trusted hop, (x.bind net.parse).isSome

instance (headers : HeaderMap) : Decidable (Readable net trusted headers) :=
  inferInstanceAs (Decidable (∀ x ∈ _, _))

end

variable {net : NetText} {trusted : List Cidr} {peer : IpAddr} {headers : HeaderMap}
  {x : Option Bytes} {r l : List (Option Bytes)}

/-! ## The walk -/

theorem findSome?_filterMap_id {α β : Type _} (f : α → Option β) (l : List (Option α)) :
    (l.filterMap id).findSome? f = l.findSome? fun o => o.bind f := by
  induction l with
  | nil => rfl
  | cons o l ih =>
    cases o with
    | none => simpa using ih
    | some a =>
      rw [filterMap_cons_some (f := id) rfl, findSome?_cons, findSome?_cons, ih]
      rfl

theorem clientIpFrom_eq (net : NetText) (hpeer : peerIsTrusted peer trusted = true)
    (headers : HeaderMap) : clientIpFrom net headers peer trusted =
      ((hops headers).findSome? (taken net trusted)).getD peer := by
  have hline : ∀ v : Bytes, (lineHops v).filterMap id =
      ((toStr v).toList.flatMap fun t => (t.splitOn 44).map trim).filter (· ≠ []) := by
    intro v
    rw [lineHops]
    cases toStr v with
    | none => rfl
    | some t => simp [filterMap_map]
  have hchain : (hops headers).filterMap id =
      ((((getAll headers (ofString "x-forwarded-for")).filterMap toStr).flatMap
        fun v => (v.splitOn 44).map trim).filter (· ≠ [])).reverse := by
    rw [hops, filterMap_reverse]
    congr 1
    induction getAll headers (ofString "x-forwarded-for") with
    | nil => rfl
    | cons v vs ih =>
      rw [flatMap_cons, filterMap_append, ih, hline]
      cases hv : toStr v <;> simp [hv]
  rw [clientIpFrom, hpeer, if_neg (by decide)]
  simp only [← hchain, findSome?_filterMap_id]
  congr 2
  funext hop
  cases hop <;> rfl

theorem taken_of_isProxy (h : isProxy net trusted x = true) : taken net trusted x = none := by
  rw [isProxy] at h
  rw [taken]
  cases hp : x.bind net.parse with
  | none => rfl
  | some ip =>
    rw [hp, any_some] at h
    rw [filter_some, h]
    rfl

theorem bind_parse_of_taken {ip : IpAddr} (h : taken net trusted x = some ip) :
    x.bind net.parse = some ip ∧ isProxy net trusted x = false := by
  obtain ⟨hp, hno⟩ := filter_eq_some_iff.1 h
  refine ⟨hp, ?_⟩
  rw [isProxy, hp, any_some]
  simpa using hno

theorem taken_of_readable (hno : isProxy net trusted x = false) (h : (x.bind net.parse).isSome) :
    ∃ ip, taken net trusted x = some ip := by
  obtain ⟨ip, hip⟩ := isSome_iff_exists.1 h
  rw [isProxy, hip, any_some] at hno
  exact ⟨ip, by rw [taken, hip, filter_some, hno]; rfl⟩

theorem findSome?_hops (hr : ∀ y ∈ r, isProxy net trusted y = true) :
    (r ++ x :: l).findSome? (taken net trusted) =
      (taken net trusted x).or (l.findSome? (taken net trusted)) := by
  have hnone : r.findSome? (taken net trusted) = none :=
    findSome?_eq_none_iff.2 fun y hy => taken_of_isProxy (hr y hy)
  rw [findSome?_append, hnone, none_or, findSome?_cons]
  cases taken net trusted x <;> rfl

theorem find?_hops (hr : ∀ y ∈ r, isProxy net trusted y = true)
    (hx : isProxy net trusted x = false) :
    (r ++ x :: l).find? (fun hop => !isProxy net trusted hop) = some x :=
  find?_eq_some_iff_append.2 ⟨by simp [hx], r, l, rfl, by simpa using hr⟩

theorem exists_first (net : NetText) (trusted : List Cidr) (hops : List (Option Bytes)) :
    (∀ y ∈ hops, isProxy net trusted y = true) ∨ ∃ r x l, hops = r ++ x :: l ∧
      (∀ y ∈ r, isProxy net trusted y = true) ∧ isProxy net trusted x = false := by
  cases hf : hops.find? fun hop => !isProxy net trusted hop with
  | none => exact .inl (by simpa using hf)
  | some x =>
    obtain ⟨hx, r, l, heq, hr⟩ := find?_eq_some_iff_append.1 hf
    exact .inr ⟨r, x, l, heq, by simpa using hr, by simpa using hx⟩

/-! ## Readable chains -/

theorem vouched_of_readable (hpeer : peerIsTrusted peer trusted = true)
    (h : Readable net trusted headers) : Vouched net trusted headers peer := by
  rcases exists_first net trusted (hops headers) with hall | ⟨r, x, l, heq, hr, hx⟩
  · left
    have hnone : (hops headers).findSome? (taken net trusted) = none :=
      findSome?_eq_none_iff.2 fun y hy => taken_of_isProxy (hall y hy)
    rw [clientIpFrom_eq _ hpeer, hnone, getD_none]
  · right
    obtain ⟨ip, hip⟩ := taken_of_readable hx (h x (by rw [heq]; exact find?_hops hr hx))
    refine ⟨hpeer, r, x, l, heq, ?_, hr⟩
    rw [clientIpFrom_eq _ hpeer, heq, findSome?_hops hr, hip]
    exact (bind_parse_of_taken hip).1

theorem confined_of_readable (hpeer : peerIsTrusted peer trusted = true)
    (h : Readable net trusted headers) : Confined net trusted headers peer := by
  intro r x l heq hr hx headers' l' heq'
  obtain ⟨ip, hip⟩ := taken_of_readable hx (h x (by rw [heq]; exact find?_hops hr hx))
  rw [clientIpFrom_eq _ hpeer, clientIpFrom_eq _ hpeer, heq, heq', findSome?_hops hr,
    findSome?_hops hr, hip]
  rfl

/-- A header map with one more line of the chain, in front of the others. -/
def withLine (v : Bytes) (hok : v.all admitted = true) (headers : HeaderMap) : HeaderMap :=
  { name := ofString "x-forwarded-for", value := v, lower := lower_forwardedFor, ok := hok } ::
    headers

theorem hops_withLine {v : Bytes} (hok : v.all admitted = true) (headers : HeaderMap) :
    hops (withLine v hok headers) = hops headers ++ (lineHops v).reverse := by
  simp [hops, withLine, getAll]

theorem taken_ne_peer (hpeer : peerIsTrusted peer trusted = true) {ip : IpAddr}
    (h : taken net trusted x = some ip) : ip ≠ peer := by
  rintro rfl
  obtain ⟨-, hno⟩ := filter_eq_some_iff.1 h
  rw [peerIsTrusted, Bool.and_eq_true] at hpeer
  simp [hpeer.2] at hno

/-- **The client does not choose its address, exactly when the chain is readable** up to its first
entry that is not a trusted proxy's. The line `v` is one that a client might send. -/
theorem client_confined_iff (net : NetText) (trusted : List Cidr) (peer : IpAddr)
    (headers : HeaderMap) {v t : Bytes} (hok : v.all admitted = true) (hv : lineHops v = [some t])
    {ip : IpAddr} (hip : taken net trusted (some t) = some ip) :
    (Vouched net trusted headers peer ∧ Confined net trusted headers peer) ↔
      (peerIsTrusted peer trusted = true → Readable net trusted headers) := by
  constructor
  · rintro ⟨hvouched, hconf⟩ hpeer x hfirst
    obtain ⟨hx, r, l, heq, hr⟩ := find?_eq_some_iff_append.1 hfirst
    replace hx : isProxy net trusted x = false := by simpa using hx
    replace hr : ∀ y ∈ r, isProxy net trusted y = true := by simpa using hr
    by_contra hread
    have hnone : taken net trusted x = none := by
      rw [taken, not_isSome_iff_eq_none.1 hread]
      rfl
    have hwalk := findSome?_hops (x := x) (l := l) hr
    rw [hnone, none_or] at hwalk
    have hclient := clientIpFrom_eq net hpeer headers
    rw [heq, hwalk] at hclient
    cases hfind : l.findSome? (taken net trusted) with
    | none =>
      have heq' : hops (withLine v hok headers) = r ++ x :: (l ++ [some t]) := by
        rw [hops_withLine, heq, hv]
        simp
      have hsame := hconf r x l heq hr hx (withLine v hok headers) (l ++ [some t]) heq'
      rw [clientIpFrom_eq _ hpeer, heq', findSome?_hops hr, hnone, none_or,
        findSome?_append, hfind, none_or, findSome?_singleton, hip, hclient,
        hfind] at hsame
      exact taken_ne_peer hpeer hip hsame
    | some a =>
      rw [hfind, getD_some] at hclient
      obtain ⟨y, -, hy⟩ := exists_of_findSome?_eq_some hfind
      rcases hvouched with hpeer' | ⟨-, r', x', l', heq', hx', hr'⟩
      · exact taken_ne_peer hpeer hy (hclient.symm.trans hpeer')
      · rw [hclient] at hx'
        have hx'' : isProxy net trusted x' = false := by
          obtain ⟨hpy, hny⟩ := bind_parse_of_taken hy
          rwa [isProxy, hx', ← hpy, ← isProxy]
        have hfirst' := find?_hops (l := l') hr' hx''
        rw [← heq'] at hfirst'
        obtain rfl := Option.some.inj (hfirst.symm.trans hfirst')
        simp [hx'] at hread
  · intro h
    by_cases hpeer : peerIsTrusted peer trusted = true
    · exact ⟨vouched_of_readable hpeer (h hpeer), confined_of_readable hpeer (h hpeer)⟩
    · have hself : ∀ headers, clientIpFrom net headers peer trusted = peer := fun headers =>
        clientIpFrom_of_untrusted net headers (Bool.eq_false_iff.2 hpeer)
      exact ⟨.inl (hself headers), fun r x l _ _ _ headers' _ _ => by rw [hself, hself]⟩

/-! ## A chain that is not readable -/

/-- One number of a dotted address: at most three digits, and no leading zero. -/
def octet (s : Bytes) : Option UInt8 :=
  if s.length ≤ 3 && (s.length ≤ 1 || s.head? ≠ some 48) then
    ((parseDigits s).filter (· < 256)).map UInt8.ofNat
  else none

/-- An address of version 4 without a port, as it is printed and read. -/
def dotted : NetText where
  print
    | .v4 octets => [46].intercalate (octets.toList.map fun b => natBytes b.toNat)
    | .v6 _ => []
  parse s :=
    match (s.splitOn 46).map octet with
    | [some a, some b, some c, some d] => some (.v4 #v[a, b, c, d])
    | _ => none

/-- The proxies of the private network `10.0.0.0/8`, one of which is the peer. -/
def privateNet : Cidr := { net := .v4 #v[10, 0, 0, 0], bits := 8, bits_le := by decide }
def proxyPeer : IpAddr := .v4 #v[10, 0, 0, 2]

def chainOf (v : Bytes) (hok : v.all admitted = true) : HeaderMap := withLine v hok []

theorem client_confined_proxies :
    Vouched dotted [privateNet] (chainOf (ofString "6.6.6.6, 9.9.9.9, 10.0.0.7") (by decide))
        proxyPeer ∧
      Confined dotted [privateNet] (chainOf (ofString "6.6.6.6, 9.9.9.9, 10.0.0.7") (by decide))
        proxyPeer := by
  have hv : lineHops (ofString "6.6.6.6") = [some (ofString "6.6.6.6")] := by decide
  have hip : taken dotted [privateNet] (some (ofString "6.6.6.6")) = some (.v4 #v[6, 6, 6, 6]) := by
    decide
  exact (client_confined_iff dotted [privateNet] proxyPeer _ (by decide) hv hip).2
    fun _ => by decide

/-- **The client chooses its address.** The last proxy's entry cannot be read, and the address that
the client sent in front of it is taken. -/
theorem client_chooses_address :
    ¬ ∀ (net : NetText) (trusted : List Cidr) (peer : IpAddr) (headers : HeaderMap),
      Vouched net trusted headers peer ∧ Confined net trusted headers peer := by
  intro h
  have hpeer : peerIsTrusted proxyPeer [privateNet] = true := by decide
  obtain ⟨-, hconf⟩ := h dotted [privateNet] proxyPeer (chainOf (ofString "unknown") (by decide))
  have hsame := hconf [] (some (ofString "unknown")) [] (by decide) (by simp) (by decide)
    (chainOf (ofString "9.9.9.9, unknown") (by decide)) [some (ofString "9.9.9.9")] (by decide)
  rw [clientIpFrom_eq _ hpeer, clientIpFrom_eq _ hpeer] at hsame
  exact absurd hsame (by decide)

end Askr.Server
