import TptProto.Foundation.Trim
import TptProto.Grpc.Authorization

/-! Who a caller is, and what the caller may call. -/

namespace TptProto.Grpc

open TptProto.Core TptProto.Foundation

structure PeerIdentity where
  principal : String := ""
  attributes : List (String × String) := []
  deriving DecidableEq, Repr

def PeerIdentity.withAttribute (self : PeerIdentity) (key value : String) : PeerIdentity :=
  { self with attributes := SortedMap.insert self.attributes key value }

/-- The lengths and every pair of bytes are compared, and what differs is gathered. -/
def constantTimeEq (a b : List UInt8) : Bool :=
  (List.zipWith (fun x y => (x ^^^ y).toNat) a b).foldl (· ||| ·) (a.length ^^^ b.length) = 0

/-- What follows the scheme in the value of a header. -/
def bearerToken (text : String) : Option String :=
  ("Bearer ".toList.isPrefixOf? text.toList |>.or ("bearer ".toList.isPrefixOf? text.toList)).map
    fun token => String.ofList (trim token)

def extractBearer (metadata : Metadata) : Option String :=
  match metadata.getText "authorization" with
  | some v => bearerToken v
  | none => (metadata.getBinary "authorization-bin").bind fun b => bearerToken (fromUtf8Lossy b)

/-- The hash set and the hash map, in the order in which they are iterated. -/
structure BearerTokenAuthenticator where
  accepted : List String := []
  principalFor : List (String × String) := []

namespace BearerTokenAuthenticator

def addToken (self : BearerTokenAuthenticator) (pair : String × String) : BearerTokenAuthenticator where
  accepted := self.accepted.insert pair.1
  principalFor := SortedMap.insert self.principalFor pair.1 pair.2

def authenticate (self : BearerTokenAuthenticator) (metadata : Metadata) (_peer : PeerInfo) :
    Except Status PeerIdentity :=
  match extractBearer metadata with
  | none => .error (.new .unauthenticated "missing bearer token")
  | some token =>
    if self.accepted.any fun t => constantTimeEq (asBytes t) (asBytes token) then
      let principal := ((self.principalFor.find? fun entry =>
        constantTimeEq (asBytes entry.1) (asBytes token)).map Prod.snd).getD token
      .ok (PeerIdentity.withAttribute { principal } "auth" "bearer")
    else .error (.new .unauthenticated "invalid bearer token")

end BearerTokenAuthenticator

structure MetadataAuthenticator where
  key : String
  expected : String
  principal : String

def MetadataAuthenticator.authenticate (self : MetadataAuthenticator) (metadata : Metadata)
    (_peer : PeerInfo) : Except Status PeerIdentity :=
  match metadata.getText self.key with
  | none => .error (.new .unauthenticated s!"missing {self.key}")
  | some value =>
    if constantTimeEq (asBytes value) (asBytes self.expected) then
      .ok (PeerIdentity.withAttribute { principal := self.principal } "auth" "metadata")
    else .error (.new .unauthenticated s!"invalid {self.key}")

/-- The certificate names the principal, or the transport does. -/
def identityFromPeer (peer : PeerInfo) : Option PeerIdentity :=
  let certified := peer.peerCertificate.bind fun cert =>
    (cert.subjectCn.or (cert.sanDns.head?.or peer.authPrincipal)).map fun principal =>
      let id := PeerIdentity.withAttribute { principal } "auth" "peer-cert"
      if cert.sanDns.isEmpty then id else id.withAttribute "san_dns" (",".intercalate cert.sanDns)
  certified.or (peer.authPrincipal.map fun p =>
    PeerIdentity.withAttribute { principal := p } "auth" "peer")

structure RoleAuthorizer where
  rules : List (String × List String) := []
  denyByDefault : Bool := false

namespace RoleAuthorizer

def allow (self : RoleAuthorizer) (grant : String × String) : RoleAuthorizer :=
  { self with rules := SortedMap.upsert self.rules grant.1 fun set => (set.getD []).insert grant.2 }

def allowed (self : RoleAuthorizer) (path principal : String) : Bool :=
  match SortedMap.get? self.rules path with
  | some set => set.contains principal
  | none =>
    match (rsplitOnce '/' path.toList).bind fun split =>
        SortedMap.get? self.rules (String.ofList split.1) with
    | some set => set.contains principal
    | none => !self.denyByDefault

def authorize (self : RoleAuthorizer) (identity : PeerIdentity) (service method : String) :
    Except Status Unit :=
  let path := service ++ "/" ++ method
  if self.allowed path identity.principal then .ok ()
  else .error (.new .permissionDenied s!"principal '{identity.principal}' may not call {path}")

end RoleAuthorizer

structure SecurityPolicy where
  authenticator : Option (Metadata → PeerInfo → Except Status PeerIdentity) := none
  authorizer : PeerIdentity → String → String → Except Status Unit := fun _ _ _ => .ok ()

namespace SecurityPolicy

def apply (self : SecurityPolicy) (ctx : RpcContext) (service method : String) :
    Except Status PeerIdentity := do
  let identity ← match self.authenticator with
    | some auth => auth ctx.metadata (ctx.peer.getD ⟨none, none, none, none⟩)
    | none => .ok ((ctx.peer.bind identityFromPeer).getD {})
  self.authorizer identity service method
  .ok identity

/-- What the server goes by: the verdict, with the principal. -/
def verdict (self : SecurityPolicy) : Policy := fun ctx service method =>
  (self.apply ctx service method).map PeerIdentity.principal

/-- Tokens, with rules for their principals. -/
def ofBearer (auth : BearerTokenAuthenticator) (roles : RoleAuthorizer) : SecurityPolicy where
  authenticator := some auth.authenticate
  authorizer := roles.authorize

end SecurityPolicy

section Comparison

private theorem foldl_or_eq_zero (diffs : List Nat) (start : Nat) :
    diffs.foldl (· ||| ·) start = 0 ↔ start = 0 ∧ ∀ diff ∈ diffs, diff = 0 := by
  induction diffs generalizing start with
  | nil => simp
  | cons diff rest ih => simp [ih, Nat.or_eq_zero_iff, and_assoc]

/-- No byte is passed over. -/
theorem constantTimeEq_iff (a b : List UInt8) : constantTimeEq a b = true ↔ a = b := by
  unfold constantTimeEq
  rw [decide_eq_true_eq, foldl_or_eq_zero]
  constructor
  · rintro ⟨lengths, zeros⟩
    have same : a.length = b.length := by
      calc a.length = a.length ^^^ b.length ^^^ b.length := by rw [Nat.xor_assoc, Nat.xor_self, Nat.xor_zero]
        _ = b.length := by rw [lengths, Nat.zero_xor]
    apply List.ext_getElem same
    intro i inside inside'
    have zero : (a[i] ^^^ b[i]).toNat = 0 := by
      apply zeros
      rw [List.mem_iff_getElem]
      exact ⟨i, by simp only [List.length_zipWith]; omega, by simp⟩
    have same : a[i] ^^^ b[i] = 0 := UInt8.toNat_inj.mp zero
    exact UInt8.xor_eq_zero_iff.mp same
  · rintro rfl
    refine ⟨Nat.xor_self _, fun diff member => ?_⟩
    obtain ⟨i, inside, rfl⟩ := List.mem_iff_getElem.mp member
    simp

theorem constantTimeEq_asBytes (text other : String) :
    constantTimeEq (asBytes text) (asBytes other) = true ↔ text = other := by
  rw [constantTimeEq_iff]
  exact ⟨asBytes_inj, congrArg asBytes⟩

end Comparison

section Tokens

/-- The same authenticator, whose set and map are iterated in some other order. -/
structure Iterates (auth other : BearerTokenAuthenticator) : Prop where
  accepted : auth.accepted.Perm other.accepted
  principalFor : auth.principalFor.Perm other.principalFor

/-- An authenticator to which these tokens were added. -/
def bearerTokens (tokens : List (String × String)) : BearerTokenAuthenticator :=
  tokens.foldl BearerTokenAuthenticator.addToken {}

theorem mem_accepted (tokens : List (String × String)) (token : String) :
    token ∈ (bearerTokens tokens).accepted ↔ ∃ principal, (token, principal) ∈ tokens := by
  have from_ (auth : BearerTokenAuthenticator) :
      token ∈ (tokens.foldl BearerTokenAuthenticator.addToken auth).accepted ↔
        token ∈ auth.accepted ∨ ∃ principal, (token, principal) ∈ tokens := by
    induction tokens generalizing auth with
    | nil => simp
    | cons pair rest inductionHypothesis =>
      rw [List.foldl_cons, inductionHypothesis]
      have added : (∃ principal, (token, principal) ∈ pair :: rest) ↔
          token = pair.1 ∨ ∃ principal, (token, principal) ∈ rest := by
        simp [Prod.ext_iff, exists_or]
      rw [added, BearerTokenAuthenticator.addToken, List.mem_insert_iff]
      grind
  rw [bearerTokens, from_]
  simp

theorem principalFor_bearerTokens (tokens : List (String × String)) :
    Latest (bearerTokens tokens).principalFor tokens := by
  have from_ (auth : BearerTokenAuthenticator) :
      (tokens.foldl BearerTokenAuthenticator.addToken auth).principalFor =
        tokens.foldl (fun entries pair => SortedMap.insert entries pair.1 pair.2)
          auth.principalFor := by
    induction tokens generalizing auth with
    | nil => rfl
    | cons pair rest inductionHypothesis => exact inductionHypothesis _
  rw [bearerTokens, from_]
  exact latest_nil.foldl_insert tokens SortedMap.sorted_nil

/-- In whatever order the set and the map are iterated, a token stands for the principal it was
last added with. -/
theorem authenticate_eq_ok_iff {tokens : List (String × String)} {auth : BearerTokenAuthenticator}
    (iterates : Iterates auth (bearerTokens tokens)) (metadata : Metadata) (peer : PeerInfo)
    (identity : PeerIdentity) :
    auth.authenticate metadata peer = .ok identity ↔
      ∃ token principal, extractBearer metadata = some token ∧ LastGiven tokens token principal ∧
        identity = { principal, attributes := [("auth", "bearer")] } := by
  have latest := principalFor_bearerTokens tokens
  have unique {token first second : String} (given : LastGiven tokens token first)
      (given' : LastGiven tokens token second) : first = second :=
    SortedMap.value_unique latest.distinct ((latest.given _ _).mpr given)
      ((latest.given _ _).mpr given')
  have known (token : String) :
      (auth.accepted.any fun t => constantTimeEq (asBytes t) (asBytes token)) = true ↔
        ∃ principal, (token, principal) ∈ tokens := by
    rw [List.any_eq_true, ← mem_accepted]
    simp only [constantTimeEq_asBytes, exists_eq_right, iterates.accepted.mem_iff]
  have named {token principal : String} (given : LastGiven tokens token principal) :
      auth.principalFor.find? (fun entry => constantTimeEq (asBytes entry.1) (asBytes token)) =
        some (token, principal) := by
    have member : (token, principal) ∈ auth.principalFor :=
      iterates.principalFor.mem_iff.mpr ((latest.given token principal).mpr given)
    cases found : auth.principalFor.find? fun entry =>
        constantTimeEq (asBytes entry.1) (asBytes token) with
    | none =>
      have absent := List.find?_eq_none.mp found _ member
      exact absurd ((constantTimeEq_asBytes token token).mpr rfl) absent
    | some entry =>
      have equal := List.find?_some found
      have same := (constantTimeEq_asBytes entry.1 token).mp equal
      have given' := (latest.given entry.1 entry.2).mp
        (iterates.principalFor.mem_iff.mp (List.mem_of_find?_eq_some found))
      rw [same] at given'
      rw [← unique given' given, ← same]
  unfold BearerTokenAuthenticator.authenticate
  cases presented : extractBearer metadata with
  | none => simp
  | some token =>
    dsimp only
    by_cases accepted : ∃ principal, (token, principal) ∈ tokens
    · obtain ⟨_, member⟩ := accepted
      obtain ⟨principal, given⟩ := exists_lastGiven member
      rw [if_pos ((known token).mpr ⟨_, member⟩), named given]
      constructor
      · rintro ⟨rfl⟩
        exact ⟨token, principal, rfl, given, rfl⟩
      · rintro ⟨_, other, ⟨rfl⟩, given', rfl⟩
        rw [unique given' given]
        rfl
    · rw [if_neg fun yes => accepted ((known token).mp yes)]
      constructor
      · intro refused
        cases refused
      · rintro ⟨_, principal, ⟨rfl⟩, given, _⟩
        exact (accepted ⟨principal, given.mem⟩).elim

end Tokens

section Roles

/-- Rules from calls of `allow`, one after another. -/
def rolesOf (denyByDefault : Bool) (grants : List (String × String)) : RoleAuthorizer :=
  grants.foldl RoleAuthorizer.allow { denyByDefault }

private theorem foldl_allow (grants : List (String × String)) (roles : RoleAuthorizer)
    (sorted : SortedMap.Sorted roles.rules) :
    (grants.foldl RoleAuthorizer.allow roles).denyByDefault = roles.denyByDefault ∧
      SortedMap.Sorted (grants.foldl RoleAuthorizer.allow roles).rules ∧ ∀ path,
        ((SortedMap.get? (grants.foldl RoleAuthorizer.allow roles).rules path = none ↔
          SortedMap.get? roles.rules path = none ∧ ∀ principal, (path, principal) ∉ grants) ∧
        ∀ principal,
          principal ∈ (SortedMap.get? (grants.foldl RoleAuthorizer.allow roles).rules path).getD [] ↔
            principal ∈ (SortedMap.get? roles.rules path).getD [] ∨ (path, principal) ∈ grants) := by
  induction grants generalizing roles with
  | nil => simp [sorted]
  | cons grant rest inductionHypothesis =>
    obtain ⟨deny, later, holds⟩ := inductionHypothesis (roles.allow grant)
      (sorted.upsert grant.1 fun set => (set.getD []).insert grant.2)
    refine ⟨deny, later, fun path => ?_⟩
    obtain ⟨unruled, ruled⟩ := holds path
    have set : SortedMap.get? (roles.allow grant).rules path =
        if path = grant.1 then some (((SortedMap.get? roles.rules grant.1).getD []).insert grant.2)
        else SortedMap.get? roles.rules path := by
      rw [RoleAuthorizer.allow, SortedMap.get?_upsert sorted]
    rw [List.foldl_cons, unruled, set]
    constructor
    · by_cases same : path = grant.1
      · subst same
        simp only [if_pos, reduceCtorEq, false_and, false_iff, not_and]
        intro _ none
        exact none grant.2 (by simp)
      · rw [if_neg same]
        simp [Prod.ext_iff, same]
    · intro principal
      rw [ruled, set]
      by_cases same : path = grant.1
      · subst same
        simp only [if_pos, Option.getD_some, List.mem_insert_iff, List.mem_cons, Prod.ext_iff,
          true_and]
        grind
      · rw [if_neg same]
        simp [Prod.ext_iff, same]

/-- A rule for the method hides the one for its service, and where neither is, the default holds. -/
def Permitted (grants : List (String × String)) (denyByDefault : Bool)
    (principal service method : String) : Prop :=
  (service ++ "/" ++ method, principal) ∈ grants ∨
    (∀ other, (service ++ "/" ++ method, other) ∉ grants) ∧
      ((service, principal) ∈ grants ∨ (∀ other, (service, other) ∉ grants) ∧ denyByDefault = false)

theorem allowed_iff (grants : List (String × String)) (denyByDefault : Bool)
    (principal : String) {service method : String} (clean : '/' ∉ method.toList) :
    (rolesOf denyByDefault grants).allowed (service ++ "/" ++ method) principal = true ↔
      Permitted grants denyByDefault principal service method := by
  obtain ⟨deny, _, holds⟩ := foldl_allow grants { denyByDefault } SortedMap.sorted_nil
  simp only [SortedMap.get?_nil, true_and, Option.getD_none, List.not_mem_nil, false_or] at holds
  have split : rsplitOnce '/' (service ++ "/" ++ method).toList =
      some (service.toList, method.toList) := by
    rw [String.toList_append, String.toList_append, List.append_assoc]
    exact rsplitOnce_split clean
  unfold RoleAuthorizer.allowed Permitted
  rw [split, rolesOf, deny]
  simp only [Option.bind_some, String.ofList_toList]
  have whole := holds (service ++ "/" ++ method)
  have front := holds service
  cases ruled : SortedMap.get? (grants.foldl RoleAuthorizer.allow { denyByDefault }).rules
      (service ++ "/" ++ method) with
  | some set =>
    rw [ruled] at whole
    obtain ⟨unruled, members⟩ := whole
    simp only [reduceCtorEq, false_iff, not_forall, not_not, Option.getD_some] at unruled members
    simp only [List.contains_iff_mem, members]
    grind
  | none =>
    rw [ruled] at whole
    have none := whole.1.mp rfl
    cases ruled' : SortedMap.get? (grants.foldl RoleAuthorizer.allow { denyByDefault }).rules
        service with
    | some set =>
      rw [ruled'] at front
      obtain ⟨unruled, members⟩ := front
      simp only [reduceCtorEq, false_iff, not_forall, not_not, Option.getD_some] at unruled members
      simp only [List.contains_iff_mem, members]
      grind
    | none =>
      rw [ruled'] at front
      have absent := front.1.mp rfl
      simp only [Bool.not_eq_true']
      grind

end Roles

section Server

theorem rsplitOnce_clean {separator : Char} {text first last : List Char}
    (split : rsplitOnce separator text = some (first, last)) : separator ∉ last := by
  by_cases member : separator ∈ text
  · obtain ⟨first', last', rfl, clean⟩ := exists_last member
    rw [rsplitOnce_split clean] at split
    cases split
    exact clean
  · rw [rsplitOnce_absent member] at split
    cases split

/-- The method that a policy is asked about has no slash in it. -/
theorem askedAbout_clean (path : String) : '/' ∉ (askedAbout path).2.toList := by
  unfold askedAbout
  cases parsed : parsePath path with
  | none => simp
  | some parts =>
    unfold parsePath at parsed
    split at parsed
    · obtain ⟨⟨svc, method⟩, split, rest⟩ := Option.bind_eq_some_iff.mp parsed
      cases rest
      simp only [Option.getD_some, String.toList_ofList]
      exact rsplitOnce_clean split
    · cases parsed

variable {Handler : Type} {registry : Registry Handler} {policy : Policy} {config : ServerConfig}
  {ctx : RpcContext} {path : String} {request : Except Status (Option (List UInt8))}

/-- The policy is asked once, about the path. -/
theorem mem_contacts_asked {service method : String} {verdict : Except Status String} :
    .asked service method verdict ∈ contacts registry (some policy) config ctx path request ↔
      (service, method) = askedAbout path ∧ verdict = policy ctx service method := by
  have handlers (found : List String) (svc : RegisteredService Handler) :
      Contact.asked service method verdict ∉ found.map fun method => .invoked svc.handler method := by
    simp
  unfold contacts
  rw [List.mem_append]
  constructor
  · rintro (asked | invoked)
    · simp only [routedCall, Option.map_some, Option.toList_some, List.map_cons, List.map_nil,
        List.mem_singleton, Contact.asked.injEq] at asked
      obtain ⟨rfl, rfl, same⟩ := asked
      exact ⟨rfl, same⟩
    · split at invoked
      · exact (handlers _ _ invoked).elim
      · cases invoked
  · rintro ⟨about, rfl⟩
    refine .inl ?_
    simp only [routedCall, Option.map_some, Option.toList_some, List.map_cons, List.map_nil, ← about]
    exact List.mem_singleton_self _

/-- The request presents a token that stands for the principal, who may call the method. -/
def Granted (tokens grants : List (String × String)) (denyByDefault : Bool) (ctx : RpcContext)
    (principal service method : String) : Prop :=
  ∃ token, extractBearer ctx.metadata = some token ∧ LastGiven tokens token principal ∧
    Permitted grants denyByDefault principal service method

theorem verdict_eq_ok_iff {tokens grants : List (String × String)} {denyByDefault : Bool}
    {auth : BearerTokenAuthenticator} (iterates : Iterates auth (bearerTokens tokens))
    {principal service method : String} (clean : '/' ∉ method.toList) :
    (SecurityPolicy.ofBearer auth (rolesOf denyByDefault grants)).verdict ctx service method =
        .ok principal ↔
      Granted tokens grants denyByDefault ctx principal service method := by
  have who := authenticate_eq_ok_iff iterates ctx.metadata (ctx.peer.getD ⟨none, none, none, none⟩)
  unfold SecurityPolicy.verdict SecurityPolicy.apply SecurityPolicy.ofBearer Granted
  simp only
  cases verified : auth.authenticate ctx.metadata (ctx.peer.getD ⟨none, none, none, none⟩) with
  | error status =>
    constructor
    · intro granted
      cases granted
    · rintro ⟨token, presented, given, _⟩
      have accepted := (who _).mpr ⟨token, principal, presented, given, rfl⟩
      rw [verified] at accepted
      cases accepted
  | ok identity =>
    obtain ⟨token, named, presented, given, rfl⟩ := (who identity).mp verified
    have roles := @allowed_iff grants denyByDefault named service _ clean
    have authorized : (rolesOf denyByDefault grants).authorize
        { principal := named, attributes := [("auth", "bearer")] } service method = .ok () ↔
          Permitted grants denyByDefault named service method := by
      rw [← roles, RoleAuthorizer.authorize]
      split <;> simp_all
    have same (granted : Granted tokens grants denyByDefault ctx principal service method) :
        principal = named ∧ Permitted grants denyByDefault named service method := by
      obtain ⟨token', presented', given', permitted⟩ := granted
      have accepted := (who _).mpr ⟨token', principal, presented', given', rfl⟩
      rw [verified] at accepted
      injection accepted with identities
      injection identities with names
      subst names
      exact ⟨rfl, permitted⟩
    change (RoleAuthorizer.authorize _ _ _ _ >>= fun _ => Except.ok _).map PeerIdentity.principal =
      .ok principal ↔ _
    cases decided : (rolesOf denyByDefault grants).authorize
        { principal := named, attributes := [("auth", "bearer")] } service method with
    | error status =>
      rw [decided] at authorized
      constructor
      · intro granted
        cases granted
      · intro granted
        cases authorized.mpr (same granted).2
    | ok =>
      constructor
      · rintro ⟨rfl⟩
        exact ⟨token, presented, given, authorized.mp decided⟩
      · intro granted
        rw [(same granted).1]
        rfl

/-- Whatever order the maps are iterated in: the policy grants what the request's token and the rules
grant, and a handler is invoked after such a grant only. -/
theorem secured_contacts {tokens grants : List (String × String)} {denyByDefault : Bool}
    {auth : BearerTokenAuthenticator} (iterates : Iterates auth (bearerTokens tokens))
    (services : List (Service Handler)) (config : ServerConfig) (ctx : RpcContext) (path : String)
    (request : Except Status (Option (List UInt8))) :
    let called := contacts (registryOf services)
      (some (SecurityPolicy.ofBearer auth (rolesOf denyByDefault grants)).verdict) config ctx path request
    (∀ service method principal, .asked service method (.ok principal) ∈ called ↔
      (service, method) = askedAbout path ∧
        Granted tokens grants denyByDefault ctx principal service method) ∧
    ∀ before handler method after, called = before ++ .invoked handler method :: after →
      ∃ principal, .asked (askedAbout path).1 (askedAbout path).2 (.ok principal) ∈ before ∧
        Granted tokens grants denyByDefault ctx principal (askedAbout path).1 (askedAbout path).2 := by
  have asked (service method principal : String) :
      .asked service method (.ok principal) ∈ contacts (registryOf services)
          (some (SecurityPolicy.ofBearer auth (rolesOf denyByDefault grants)).verdict) config ctx path
          request ↔
        (service, method) = askedAbout path ∧
          Granted tokens grants denyByDefault ctx principal service method := by
    rw [mem_contacts_asked]
    refine and_congr_right fun about => ?_
    rw [eq_comm]
    apply verdict_eq_ok_iff iterates
    have clean := askedAbout_clean path
    rwa [← about] at clean
  refine ⟨asked, fun before handler method after contacted => ?_⟩
  obtain ⟨_, _, principal, earlier⟩ := invoked_of_contacts contacted
  refine ⟨principal, earlier, ((asked _ _ _).mp ?_).2⟩
  rw [contacted]
  exact List.mem_append_left _ earlier

def aliceContext : RpcContext where
  metadata := { map := [("authorization", asBytes "Bearer t")] }
  deadline := none
  cancelled := false
  peer := none

theorem secured_contacts_alice :
    .asked "p.S" "M" (.ok "alice") ∈ contacts (registryOf [{ handler := (), methods := [("/p.S/M", .unary)] }])
      (some (SecurityPolicy.ofBearer (bearerTokens [("t", "bob"), ("t", "alice")])
        (rolesOf true [("p.S", "alice")])).verdict) {} aliceContext "/p.S/M" (.ok (some [])) := by
  have called := @secured_contacts Unit [("t", "bob"), ("t", "alice")] [("p.S", "alice")] true _
    ⟨.refl _, .refl _⟩ [{ handler := (), methods := [("/p.S/M", .unary)] }] {} aliceContext "/p.S/M"
    (.ok (some []))
  refine (called.1 "p.S" "M" "alice").mpr ⟨by decide, "t", by decide, ⟨[("t", "bob")], [], rfl, by simp⟩, ?_⟩
  exact .inr ⟨by simp, .inl (by simp)⟩

end Server

end TptProto.Grpc
