/-
# `Octos.Agent.Ssrf` — guarded requests

`ssrf.rs`: the address classifier, the check of one URL, and the loop that
follows redirects and checks every hop.  URLs, DNS and the HTTP client are
libraries.  `UrlLib` is what the code asks of a URL; `Net` is the world of one
call: what each lookup answers and what each request comes back with, both
arbitrary and free to change from one iteration to the next.

The client connects where the URL and the pins say (`Hop.MayConnect`): to the
address in the URL if it has one, else to the pinned addresses of its host, and
anywhere if there are none.  `guarded_hops` says that the last case never
happens and that every address left is public.
-/
import Octos.Lib.Addr

namespace Octos.Agent

open AddrText

/-! ## The classifier -/

/-- `is_special_purpose_v4`. -/
def isSpecialPurposeV4 (v4 : Ipv4Addr) : Bool :=
  -- shared address space 100.64.0.0/10
  (v4.a == 100 && 64 ≤ v4.b.toNat && v4.b.toNat ≤ 127)
    -- protocol assignments 192.0.0.0/24
    || (v4.a == 192 && v4.b == 0 && v4.c == 0)
    -- benchmarking 198.18.0.0/15
    || (v4.a == 198 && (v4.b == 18 || v4.b == 19))
    -- multicast and reserved
    || 224 ≤ v4.a.toNat

/-- `is_private_ip` of an IPv4 address. -/
def isPrivateV4 (v4 : Ipv4Addr) : Bool :=
  v4.isLoopback || v4.isPrivate || v4.isLinkLocal || v4.isUnspecified || isSpecialPurposeV4 v4

/-- `is_private_ip`. -/
def isPrivateIp : IpAddr → Bool
  | .v4 v4 => isPrivateV4 v4
  | .v6 v6 =>
      v6.isLoopback || v6.isUnspecified || v6.isMulticast
        -- unique local fc00::/7
        || (0xfc00 ≤ v6.s0.toNat && v6.s0.toNat ≤ 0xfdff)
        -- link-local fe80::/10
        || v6.s0 &&& 0xffc0 == 0xfe80
        -- site-local fec0::/10
        || v6.s0 &&& 0xffc0 == 0xfec0
        || v6.toIpv4Mapped.any isPrivateV4
        || v6.toIpv4.any isPrivateV4

/-- `is_private_host`. -/
def isPrivateHost (host : String) : Bool :=
  let lower := host.toList.map Char.toLower
  if lower = "localhost".toList ∨ lower = "localhost.".toList then true
  else
    match parseIpAddr host.toList with
    | some ip => isPrivateIp ip
    | none => false

/-! ## The check of one URL -/

/-- The host of a URL. -/
inductive Host where
  | domain (name : String)
  | ipv4 (addr : Ipv4Addr)
  | ipv6 (addr : Ipv6Addr)
  deriving DecidableEq

/-- The URL library. -/
structure UrlLib where
  Url : Type
  parse : String → Option Url
  /-- The scheme is `http` or `https`: the client speaks no other. -/
  http : Url → Bool
  host : Url → Option Host
  hostStr : Url → Option String
  portOrKnownDefault : Url → Option (BitVec 16)
  join : Url → String → Option Url
  text : Url → String

/-- The port that is looked up. -/
def UrlLib.port (U : UrlLib) (u : U.Url) : BitVec 16 :=
  (U.portOrKnownDefault u).getD 443

/-- How the library writes a host: an IPv4 address as an address, an IPv6
address in brackets.  A web URL whose host reads as an address has that address
as its host, so a name never does. -/
structure UrlLib.Lawful (U : UrlLib) : Prop where
  domain : ∀ u name, U.http u = true → U.host u = some (.domain name) →
    U.hostStr u = some name ∧ parseIpAddr name.toList = none
  ipv4 : ∀ u addr, U.host u = some (.ipv4 addr) →
    ∃ s, U.hostStr u = some s ∧ parseIpAddr s.toList = some (.v4 addr)
  ipv6 : ∀ u addr, U.host u = some (.ipv6 addr) →
    ∃ s text, U.hostStr u = some s ∧ s.toList = '[' :: (text ++ [']']) ∧
      parseIpAddr text = some (.v6 addr)

/-- `SsrfCheckResult`. -/
structure SsrfCheckResult where
  resolvedAddrs : List SocketAddr
  deriving DecidableEq

/-- The loop of `validate_answer_set`. -/
def collectSafe (host : String) (safeAddrs : List SocketAddr) :
    List SocketAddr → Except String (List SocketAddr)
  | [] =>
      if safeAddrs.isEmpty then
        .error ("DNS resolution returned no addresses for host '" ++ host
          ++ "' — blocking request (fail closed)")
      else .ok safeAddrs
  | addr :: rest =>
      if isPrivateIp addr.ip then
        .error "Requests to private/internal hosts are not allowed (DNS resolved to private IP)"
      else collectSafe host (safeAddrs ++ [addr]) rest

/-- `validate_answer_set`. -/
def validateAnswerSet (host : String) (addrs : List SocketAddr) : Except String (List SocketAddr) :=
  collectSafe host [] addrs

/-- `check_ssrf_with_addrs`; `lookupHost host port` is the lookup of the text
`host:port`. -/
def checkSsrfWithAddrs (U : UrlLib)
    (lookupHost : String → BitVec 16 → Except String (List SocketAddr)) (url : String) :
    Except String SsrfCheckResult :=
  match U.parse url with
  | none => .error "Invalid URL"
  | some parsed =>
      match U.hostStr parsed with
      | none => .error "URL has no host"
      | some host =>
          if isPrivateHost host then
            .error "Requests to private/internal hosts are not allowed"
          else if (parseIpAddr host.toList).isSome then .ok ⟨[]⟩
          else
            match lookupHost host (U.port parsed) with
            | .ok addrs => (validateAnswerSet host addrs).map SsrfCheckResult.mk
            | .error e =>
                .error ("DNS resolution failed for host '" ++ host
                  ++ "' — blocking request (fail closed): " ++ e)

/-! ## The loop over redirects -/

/-- What the code reads of a response. -/
structure Response where
  status : Nat
  location : Option String
  deriving DecidableEq

/-- 3xx -/
def Response.isRedirection (r : Response) : Bool :=
  300 ≤ r.status && r.status < 400

/-- A request handed to a client: its URL and the addresses pinned for a host. -/
structure Hop where
  url : String
  host : String
  pins : List SocketAddr
  deriving DecidableEq

/-- What becomes of a hop. -/
inductive HopOutcome where
  /-- the client could not be built, nothing was sent -/
  | clientError (e : String)
  | requestFailed (e : String)
  | response (r : Response)

/-- The world of one call: the lookups and the requests of each iteration. -/
structure Net where
  lookup : Nat → String → BitVec 16 → Except String (List SocketAddr)
  outcome : Nat → Hop → HopOutcome

/-- A lookup of a bracketed address is not a query: it answers that address. -/
def Net.Literal (net : Net) : Prop :=
  ∀ i (s : String) text addr port, s.toList = '[' :: (text ++ [']']) →
    parseIpAddr text = some (.v6 addr) → net.lookup i s port = .ok [⟨.v6 addr, port⟩]

/-- The loop of `ssrf_safe_send`, with the hops it sent; `i` counts the
iterations, `left` how many of the `maxRedirects` are left. -/
def sendFrom (U : UrlLib) (net : Net) (maxRedirects : Nat) :
    (left i : Nat) → (currentUrl : String) → List Hop × Except String Response
  | 0, _, _ => ([], .error ("Too many redirects (max " ++ toString maxRedirects ++ ")"))
  | left + 1, i, currentUrl =>
      match checkSsrfWithAddrs U (net.lookup i) currentUrl with
      | .error e => ([], .error e)
      | .ok check =>
          match U.parse currentUrl with
          | none => ([], .error "Invalid URL")
          | some parsed =>
              match U.hostStr parsed with
              | none => ([], .error "URL has no host")
              | some host =>
                  let hop : Hop := ⟨currentUrl, host, check.resolvedAddrs⟩
                  match net.outcome i hop with
                  | .clientError e => ([], .error ("HTTP client error: " ++ e))
                  | .requestFailed e => ([hop], .error ("request failed: " ++ e))
                  | .response r =>
                      if !r.isRedirection then ([hop], .ok r)
                      else
                        match r.location with
                        | none => ([hop], .error "Redirect with no Location header")
                        | some location =>
                            match U.join parsed location with
                            | none => ([hop], .error ("Invalid redirect URL: " ++ location))
                            | some next =>
                                let rest := sendFrom U net maxRedirects left (i + 1) (U.text next)
                                (hop :: rest.1, rest.2)

/-- `ssrf_safe_send`: the hops that were sent and the answer. -/
def ssrfSafeSend (U : UrlLib) (net : Net) (initialUrl : String) (maxRedirects : Nat) :
    List Hop × Except String Response :=
  sendFrom U net maxRedirects maxRedirects 0 initialUrl

/-- The addresses a client with redirects off may connect to for a hop. -/
def Hop.MayConnect (U : UrlLib) (hop : Hop) (ip : IpAddr) : Prop :=
  ∃ u, U.parse hop.url = some u ∧ U.http u = true ∧
    match U.host u with
    | none => False
    | some (.ipv4 addr) => ip = .v4 addr
    | some (.ipv6 addr) => ip = .v6 addr
    -- the override is looked up under the name; without one the name is resolved
    | some (.domain name) => (hop.host = name ∧ hop.pins ≠ []) → ∃ pin ∈ hop.pins, pin.ip = ip

/-! ## What is sent -/

/-- What is asked of the hop sent in iteration `i`. -/
structure GuardedHop (U : UrlLib) (net : Net) (i : Nat) (hop : Hop) : Prop where
  /-- the check of this iteration accepted the URL, and its addresses are pinned -/
  checked : checkSsrfWithAddrs U (net.lookup i) hop.url = .ok ⟨hop.pins⟩
  /-- the address in the URL, or the validated answer of this iteration -/
  target :
    (hop.pins = [] ∧ ∃ ip, parseIpAddr hop.host.toList = some ip ∧ isPrivateIp ip = false ∧
      ∀ a, hop.MayConnect U a → a = ip) ∨
    (hop.pins ≠ [] ∧ (∃ port, net.lookup i hop.host port = .ok hop.pins) ∧
      (∀ pin ∈ hop.pins, isPrivateIp pin.ip = false) ∧
      ∀ a, hop.MayConnect U a → ∃ pin ∈ hop.pins, pin.ip = a)

theorem collectSafe_ok {host : String} : ∀ {addrs safeAddrs result : List SocketAddr},
    collectSafe host safeAddrs addrs = .ok result →
      result = safeAddrs ++ addrs ∧ result ≠ [] ∧ ∀ a ∈ addrs, isPrivateIp a.ip = false := by
  intro addrs
  induction addrs with
  | nil =>
      intro safeAddrs result h
      rw [collectSafe] at h
      split at h
      · cases h
      · next hne =>
          obtain rfl := Except.ok.inj h
          refine ⟨(List.append_nil _).symm, ?_, by simp⟩
          simpa [List.isEmpty_iff] using hne
  | cons addr rest ih =>
      intro safeAddrs result h
      rw [collectSafe] at h
      split at h
      · cases h
      · next hpublic =>
          obtain ⟨heq, hne, hrest⟩ := ih h
          refine ⟨by simpa using heq, hne, ?_⟩
          intro a ha
          rcases List.mem_cons.mp ha with rfl | ha
          · simpa using hpublic
          · exact hrest a ha

/-- An accepted answer set is the answer, not empty, and public. -/
theorem validateAnswerSet_ok {host : String} {addrs result : List SocketAddr}
    (h : validateAnswerSet host addrs = .ok result) :
    result = addrs ∧ addrs ≠ [] ∧ ∀ a ∈ addrs, isPrivateIp a.ip = false := by
  obtain ⟨rfl, hne, hpublic⟩ := collectSafe_ok h
  exact ⟨rfl, hne, hpublic⟩

/-- An accepted host that reads as an address is a public one. -/
theorem public_of_not_isPrivateHost {host : String} {ip : IpAddr} (h : isPrivateHost host = false)
    (hip : parseIpAddr host.toList = some ip) : isPrivateIp ip = false := by
  simp only [isPrivateHost, hip] at h
  split at h
  · cases h
  · exact h

/-- What an accepted check means: a public address in the host and nothing to
pin, or a validated answer. -/
theorem checkSsrf_ok {U : UrlLib} {lookup : String → BitVec 16 → Except String (List SocketAddr)}
    {url : String} {check : SsrfCheckResult} (h : checkSsrfWithAddrs U lookup url = .ok check) :
    ∃ u host, U.parse url = some u ∧ U.hostStr u = some host ∧
      ((check.resolvedAddrs = [] ∧ ∃ ip, parseIpAddr host.toList = some ip ∧ isPrivateIp ip = false) ∨
        (parseIpAddr host.toList = none ∧ check.resolvedAddrs ≠ [] ∧
          lookup host (U.port u) = .ok check.resolvedAddrs ∧
          ∀ a ∈ check.resolvedAddrs, isPrivateIp a.ip = false)) := by
  unfold checkSsrfWithAddrs at h
  cases hparse : U.parse url with
  | none => simp [hparse] at h
  | some u =>
      cases hhost : U.hostStr u with
      | none => simp [hparse, hhost] at h
      | some host =>
          refine ⟨u, host, rfl, hhost, ?_⟩
          cases hprivate : isPrivateHost host with
          | true => simp [hparse, hhost, hprivate] at h
          | false =>
              cases hip : parseIpAddr host.toList with
              | some ip =>
                  obtain rfl : (⟨[]⟩ : SsrfCheckResult) = check := by
                    simpa [hparse, hhost, hprivate, hip] using h
                  exact Or.inl ⟨rfl, ip, rfl, public_of_not_isPrivateHost hprivate hip⟩
              | none =>
                  cases hl : lookup host (U.port u) with
                  | error e => simp [hparse, hhost, hprivate, hip, hl] at h
                  | ok addrs =>
                      cases hv : validateAnswerSet host addrs with
                      | error e => simp [hparse, hhost, hprivate, hip, hl, hv, Except.map] at h
                      | ok safe =>
                          obtain ⟨rfl, hne, hpublic⟩ := validateAnswerSet_ok hv
                          obtain rfl : (⟨safe⟩ : SsrfCheckResult) = check := by
                            simpa [hparse, hhost, hprivate, hip, hl, hv, Except.map] using h
                          exact Or.inr ⟨rfl, hne, rfl, hpublic⟩

/-- **A checked hop is a guarded hop.** -/
theorem guardedHop_of_check {U : UrlLib} (hU : U.Lawful) {net : Net} (hnet : net.Literal) {i : Nat}
    {url host : String} {check : SsrfCheckResult} {u : U.Url}
    (h : checkSsrfWithAddrs U (net.lookup i) url = .ok check) (hu : U.parse url = some u)
    (hhost : U.hostStr u = some host) : GuardedHop U net i ⟨url, host, check.resolvedAddrs⟩ := by
  obtain ⟨u', host', hu', hhost', hcases⟩ := checkSsrf_ok h
  obtain rfl : u = u' := by simpa [hu] using hu'
  obtain rfl : host = host' := by simpa [hhost] using hhost'
  refine ⟨h, ?_⟩
  rcases hcases with ⟨hpins, ip, hip, hpublic⟩ | ⟨hip, hne, hlookup, hpublic⟩
  · refine Or.inl ⟨hpins, ip, hip, hpublic, ?_⟩
    rintro a ⟨v, hv, hhttp, hconnect⟩
    obtain rfl : u = v := by simpa [hu] using hv
    cases hh : U.host u with
    | none => simp [hh] at hconnect
    | some target =>
        rw [hh] at hconnect
        cases target with
        | domain name =>
            -- a name that reads as an address is not the host of a web URL
            obtain ⟨hname, hnone⟩ := hU.domain u name hhttp hh
            obtain rfl : host = name := by simpa [hhost] using hname
            simp [hip] at hnone
        | ipv4 addr =>
            obtain ⟨s, hs, haddr⟩ := hU.ipv4 u addr hh
            obtain rfl : host = s := by simpa [hhost] using hs
            obtain rfl : ip = .v4 addr := by simpa [hip] using haddr
            exact hconnect
        | ipv6 addr =>
            obtain ⟨s, text, hs, hbracket, -⟩ := hU.ipv6 u addr hh
            obtain rfl : host = s := by simpa [hhost] using hs
            rw [hbracket, parseIpAddr_bracket] at hip
            cases hip
  · refine Or.inr ⟨hne, ⟨_, hlookup⟩, hpublic, ?_⟩
    rintro a ⟨v, hv, hhttp, hconnect⟩
    obtain rfl : u = v := by simpa [hu] using hv
    cases hh : U.host u with
    | none => simp [hh] at hconnect
    | some target =>
        rw [hh] at hconnect
        cases target with
        | domain name =>
            obtain ⟨hname, -⟩ := hU.domain u name hhttp hh
            obtain rfl : host = name := by simpa [hhost] using hname
            exact hconnect ⟨rfl, hne⟩
        | ipv4 addr =>
            obtain ⟨s, hs, haddr⟩ := hU.ipv4 u addr hh
            obtain rfl : host = s := by simpa [hhost] using hs
            simp [hip] at haddr
        | ipv6 addr =>
            -- the lookup answered the address in the brackets
            obtain ⟨s, text, hs, hbracket, haddr⟩ := hU.ipv6 u addr hh
            obtain rfl : host = s := by simpa [hhost] using hs
            have hanswer := hnet i host text addr (U.port u) hbracket haddr
            have hpins : check.resolvedAddrs = [⟨.v6 addr, U.port u⟩] := by
              simpa [hlookup] using hanswer
            refine ⟨_, by rw [hpins]; exact List.mem_singleton_self _, hconnect.symm⟩

/-- The hops of the loop from iteration `i` on. -/
theorem sendFrom_guarded {U : UrlLib} (hU : U.Lawful) {net : Net} (hnet : net.Literal)
    (maxRedirects : Nat) : ∀ (left i : Nat) (url : String),
    (sendFrom U net maxRedirects left i url).1.length ≤ left ∧
      ∀ k hop, (sendFrom U net maxRedirects left i url).1[k]? = some hop →
        GuardedHop U net (i + k) hop := by
  intro left
  induction left with
  | zero =>
      intro i url
      exact ⟨le_refl _, by simp [sendFrom]⟩
  | succ left ih =>
      intro i url
      rw [sendFrom]
      cases hcheck : checkSsrfWithAddrs U (net.lookup i) url with
      | error e => simp
      | ok check =>
          obtain ⟨u, host, hu, hhost, -⟩ := checkSsrf_ok hcheck
          have hfirst := guardedHop_of_check hU hnet hcheck hu hhost
          -- every way out sends nothing more than this hop
          have hlast : ∀ k hop, [(⟨url, host, check.resolvedAddrs⟩ : Hop)][k]? = some hop →
              GuardedHop U net (i + k) hop := by
            intro k hop hk
            obtain ⟨rfl, rfl⟩ : k = 0 ∧ (⟨url, host, check.resolvedAddrs⟩ : Hop) = hop := by
              simpa [List.getElem?_singleton] using hk
            exact hfirst
          simp only [hu, hhost]
          cases net.outcome i ⟨url, host, check.resolvedAddrs⟩ with
          | clientError e => simp
          | requestFailed e => exact ⟨by simp, hlast⟩
          | response r =>
              cases hr : r.isRedirection with
              | false =>
                  simp only [hr, Bool.not_false, if_true]
                  exact ⟨by simp, hlast⟩
              | true =>
                  simp only [hr, Bool.not_true, Bool.false_eq_true, if_false]
                  cases r.location with
                  | none => exact ⟨by simp, hlast⟩
                  | some location =>
                      cases hjoin : U.join u location with
                      | none =>
                          simp only [hjoin]
                          exact ⟨by simp, hlast⟩
                      | some next =>
                          simp only [hjoin]
                          obtain ⟨hlen, hrest⟩ := ih (i + 1) (U.text next)
                          refine ⟨by simpa using hlen, ?_⟩
                          intro k hop hk
                          cases k with
                          | zero => exact hlast 0 hop hk
                          | succ k =>
                              have := hrest k hop (by simpa using hk)
                              rwa [Nat.add_right_comm, Nat.add_assoc] at this

/-- **Every hop of a guarded request goes to a validated public address.**
Whatever the lookups answer and wherever the responses redirect to, each hop
that is sent was accepted by the check of its own iteration and may connect only
to the public address in its URL or to the public addresses the check resolved;
and there are at most `maxRedirects` of them. -/
theorem guarded_hops (U : UrlLib) (hU : U.Lawful) (net : Net) (hnet : net.Literal)
    (initialUrl : String) (maxRedirects : Nat) :
    (ssrfSafeSend U net initialUrl maxRedirects).1.length ≤ maxRedirects ∧
      ∀ i hop, (ssrfSafeSend U net initialUrl maxRedirects).1[i]? = some hop →
        GuardedHop U net i hop := by
  obtain ⟨hlen, hhops⟩ := sendFrom_guarded hU hnet maxRedirects maxRedirects 0 initialUrl
  refine ⟨hlen, ?_⟩
  intro i hop hi
  have := hhops i hop hi
  rwa [Nat.zero_add] at this

/-- Two URLs: a name, and an address it redirects to. -/
def sampleUrls : UrlLib where
  Url := Bool
  parse := fun s =>
    if s = "https://example.com/" then some true
    else if s = "https://8.8.8.8/" then some false
    else none
  http := fun _ => true
  host := fun u => some (if u then .domain "example.com" else .ipv4 ⟨8, 8, 8, 8⟩)
  hostStr := fun u => some (if u then "example.com" else "8.8.8.8")
  portOrKnownDefault := fun _ => some 443
  join := fun _ location => if location = "https://8.8.8.8/" then some false else none
  text := fun u => if u then "https://example.com/" else "https://8.8.8.8/"

/-- A network in which the name resolves and redirects to the address. -/
def sampleNet : Net where
  lookup := fun _ host port =>
    match host.toList with
    | '[' :: rest =>
        match parseIpAddr rest.dropLast with
        | some ip => .ok [⟨ip, port⟩]
        | none => .error "no such address"
    | _ => .ok [⟨.v4 ⟨93, 184, 216, 34⟩, port⟩]
  outcome := fun i _ =>
    if i = 0 then .response ⟨302, some "https://8.8.8.8/"⟩ else .response ⟨200, none⟩

/-- A redirect from a name to an address: two guarded hops. -/
theorem guarded_hops_redirect :
    (ssrfSafeSend sampleUrls sampleNet "https://example.com/" 10).1.length = 2 ∧
      ∀ i hop, (ssrfSafeSend sampleUrls sampleNet "https://example.com/" 10).1[i]? = some hop →
        GuardedHop sampleUrls sampleNet i hop := by
  refine ⟨by rfl, (guarded_hops sampleUrls ?_ sampleNet ?_ "https://example.com/" 10).2⟩
  · refine ⟨?_, ?_, ?_⟩
    · intro u name _ h
      cases u with
      | true =>
          obtain rfl : "example.com" = name := by simpa [sampleUrls] using h
          exact ⟨rfl, by rfl⟩
      | false => simp [sampleUrls] at h
    · intro u addr h
      cases u with
      | true => simp [sampleUrls] at h
      | false =>
          obtain rfl : (⟨8, 8, 8, 8⟩ : Ipv4Addr) = addr := by simpa [sampleUrls] using h
          exact ⟨"8.8.8.8", rfl, by rfl⟩
    · intro u addr h
      cases u <;> simp [sampleUrls] at h
  · intro i s text addr port hs haddr
    simp only [sampleNet, hs, List.dropLast_concat, haddr]

end Octos.Agent
