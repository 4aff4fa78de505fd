import TptProto.Grpc.HandleRequest
import Mathlib.Data.List.TakeDrop

/-! The service and method that the security policy is asked about, and the method that runs. -/

namespace TptProto.Grpc

open TptProto.Core TptProto.Foundation

/-- `str::rsplit_once`: what stands before and after the last separator. -/
def rsplitOnce (separator : Char) (text : List Char) : Option (List Char × List Char) :=
  match text.reverse.span (· ≠ separator) with
  | (_, []) => none
  | (last, _ :: first) => some (first.reverse, last.reverse)

def buildPath (package service method : String) : String :=
  if package = "" then "/" ++ service ++ "/" ++ method
  else "/" ++ package ++ "." ++ service ++ "/" ++ method

/-- The package, the service and the method of a request path. -/
def parsePath (path : String) : Option (String × String × String) :=
  match path.toList with
  | '/' :: p => do
    let (svc, method) ← rsplitOnce '/' p
    let (package, service) := (rsplitOnce '.' svc).getD ([], svc)
    some (String.ofList package, String.ofList service, String.ofList method)
  | _ => none

/-- What a handler offers to `add_service`. -/
structure Service (Handler : Type) where
  handler : Handler
  methods : List (String × MethodKind)

structure RegisteredService (Handler : Type) where
  handler : Handler
  methods : List (String × MethodKind)

/-- The routing table, with the latest insertion first. -/
abbrev Registry (Handler : Type) := List (String × RegisteredService Handler)

section Routing

variable {Handler : Type}

def addService (registry : Registry Handler) (service : Service Handler) : Registry Handler :=
  service.methods.foldl (fun registry entry =>
    (entry.1, { handler := service.handler, methods := [entry] }) :: registry) registry

def registryOf (services : List (Service Handler)) : Registry Handler :=
  services.foldl addService []

/-- The policy of a server: its verdict on a service and a method, with the caller's identity. -/
abbrev Policy := RpcContext → String → String → Except Status String

/-- The service and the method that the policy is asked about. -/
def askedAbout (path : String) : String × String :=
  let (package, svc, method) := (parsePath path).getD ("", "", "")
  (if package = "" then svc else package ++ "." ++ svc, method)

/-- What `handle_request` fixes before it waits for the handler. -/
def routedCall (registry : Registry Handler) (security : Option Policy) (config : ServerConfig)
    (ctx : RpcContext) (path : String) : Call :=
  let found := registry.lookup path
  { path
    kind := (found.bind fun svc => svc.methods.lookup path).getD .unary
    config
    ctx
    policy := security.map fun policy => policy ctx (askedAbout path).1 (askedAbout path).2
    handled := found.isSome }

/-- The method that `dispatch` hands to the handler, if it gets as far as calling it. -/
def invocation (kind : MethodKind) (path : String)
    (request : Except Status (Option (List UInt8))) : Option String :=
  match methodName path, kind, request with
  | .ok method, .unary, .ok (some _) => some method
  | .ok method, .serverStreaming, .ok (some _) => some method
  | .ok method, .clientStreaming, _ => some method
  | .ok method, .bidiStreaming, _ => some method
  | _, _, _ => none

/-- What a request makes the server do to its policy and to a handler. -/
inductive Contact (Handler : Type) where
  | asked (service method : String) (verdict : Except Status String)
  | invoked (handler : Handler) (method : String)

/-- The contacts of one request, in the order in which they are made. -/
def contacts (registry : Registry Handler) (security : Option Policy) (config : ServerConfig)
    (ctx : RpcContext) (path : String) (request : Except Status (Option (List UInt8))) :
    List (Contact Handler) :=
  let call := routedCall registry security config ctx path
  let policy := call.policy.toList.map fun verdict =>
    .asked (askedAbout path).1 (askedAbout path).2 verdict
  let handlers := match call.admission, registry.lookup path with
    | .waiting, some svc =>
      (invocation call.kind path request).toList.map fun method => .invoked svc.handler method
    | _, _ => []
  policy ++ handlers

/-- Before a handler is invoked, the policy has granted the method that it is handed, of the
service that the path names. -/
def CheckedFirst (path : String) (contacts : List (Contact Handler)) : Prop :=
  ∀ before handler method after, contacts = before ++ .invoked handler method :: after →
    ∃ service identity, .asked service method (.ok identity) ∈ before ∧
      path = "/" ++ service ++ "/" ++ method

/-- Some handler lists the path among its methods. -/
def Registered (services : List (Service Handler)) (path : String) : Prop :=
  ∃ service ∈ services, ∃ kind, (path, kind) ∈ service.methods

end Routing

/-- The path names a service and a method, and the service is no bare name after a dot. -/
def WellSplit (path : String) : Prop :=
  ∃ service method, path = "/" ++ service ++ "/" ++ method ∧ '/' ∉ method.toList ∧
    ¬ ∃ name, service = "." ++ name ∧ '.' ∉ name.toList

section Splitting

variable {separator : Char} {text first last : List Char}

theorem span_last (clean : separator ∉ last) :
    (first ++ separator :: last).reverse.span (· ≠ separator) =
      (last.reverse, separator :: first.reverse) := by
  have apart : ∀ c ∈ last.reverse, decide (c ≠ separator) = true := by
    intro c member
    refine decide_eq_true fun same => clean ?_
    rw [← same]
    exact List.mem_reverse.mp member
  rw [List.span_eq_takeWhile_dropWhile, List.reverse_append, List.reverse_cons, List.append_assoc,
    List.singleton_append, List.takeWhile_append_of_pos apart, List.dropWhile_append_of_pos apart]
  simp

theorem span_absent (absent : separator ∉ text) :
    text.reverse.span (· ≠ separator) = (text.reverse, []) := by
  have apart : ∀ c ∈ text.reverse, decide (c ≠ separator) = true := by
    intro c member
    refine decide_eq_true fun same => absent ?_
    rw [← same]
    exact List.mem_reverse.mp member
  have whole := @List.takeWhile_append_of_pos _ _ _ [] apart
  have rest := @List.dropWhile_append_of_pos _ _ _ [] apart
  rw [List.append_nil] at whole rest
  rw [List.span_eq_takeWhile_dropWhile, whole, rest]
  simp

theorem rsplitOnce_split (clean : separator ∉ last) :
    rsplitOnce separator (first ++ separator :: last) = some (first, last) := by
  unfold rsplitOnce
  rw [span_last clean]
  simp

theorem rsplitOnce_absent (absent : separator ∉ text) : rsplitOnce separator text = none := by
  unfold rsplitOnce
  rw [span_absent absent]

/-- A separator in a text occurs in it for the last time. -/
theorem exists_last (member : separator ∈ text) :
    ∃ first last, text = first ++ separator :: last ∧ separator ∉ last := by
  obtain ⟨last, first, same, clean⟩ := List.eq_append_cons_of_mem (List.mem_reverse.mpr member)
  refine ⟨first.reverse, last.reverse, ?_, fun inside => clean (List.mem_reverse.mp inside)⟩
  rw [← List.reverse_reverse text, same]
  simp

theorem methodName_split {path : String} (same : path.toList = first ++ '/' :: last)
    (clean : '/' ∉ last) : methodName path = .ok (String.ofList last) := by
  unfold methodName
  rw [same, span_last clean]
  simp

theorem methodName_absent {path : String} (absent : '/' ∉ path.toList) :
    methodName path = .error (.new .internal "malformed request path") := by
  unfold methodName
  rw [span_absent absent]

end Splitting

/-- A policy asked about a path that names a service and a method, is asked about just these. -/
theorem askedAbout_split {service method : List Char} (clean : '/' ∉ method)
    (named : ¬ ∃ name, service = '.' :: name ∧ '.' ∉ name) :
    askedAbout (String.ofList ('/' :: (service ++ '/' :: method))) =
      (String.ofList service, String.ofList method) := by
  unfold askedAbout parsePath
  rw [String.toList_ofList]
  simp only [rsplitOnce_split clean, Option.bind_eq_bind, Option.bind_some]
  rcases Classical.em ('.' ∈ service) with dotted | plain
  · obtain ⟨package, name, rfl, bare⟩ := exists_last dotted
    rw [rsplitOnce_split bare]
    cases package with
    | nil => exact (named ⟨name, rfl, bare⟩).elim
    | cons first rest =>
      simp only [Option.getD_some]
      rw [if_neg (by simp)]
      simp [← String.toList_inj]
  · rw [rsplitOnce_absent plain]
    simp

/-- The policy hears of the bare name only. -/
theorem askedAbout_dotted {name method : List Char} (clean : '/' ∉ method) (bare : '.' ∉ name) :
    askedAbout (String.ofList ('/' :: ('.' :: name ++ '/' :: method))) =
      (String.ofList name, String.ofList method) := by
  have cut : rsplitOnce '.' ('.' :: name) = some ([], name) :=
    @rsplitOnce_split '.' [] name bare
  unfold askedAbout parsePath
  rw [String.toList_ofList]
  simp only [rsplitOnce_split clean, Option.bind_eq_bind, Option.bind_some, cut]
  simp

section Registered

variable {Handler : Type}

private theorem lookup_addService (registry : Registry Handler) (service : Service Handler)
    (path : String) : ((addService registry service).lookup path).isSome ↔
      (registry.lookup path).isSome ∨ ∃ kind, (path, kind) ∈ service.methods := by
  unfold addService
  induction service.methods generalizing registry with
  | nil => simp
  | cons entry rest inductionHypothesis =>
    rw [List.foldl_cons, inductionHypothesis, List.lookup_cons]
    obtain ⟨listed, kind⟩ := entry
    by_cases same : path = listed
    · subst same
      simp
    · have apart : (path == listed) = false := by simpa using same
      simp [apart, same]

/-- A path is found in the routing table if some handler lists it. -/
theorem lookup_registryOf (services : List (Service Handler)) (path : String) :
    ((registryOf services).lookup path).isSome ↔ Registered services path := by
  have from_ (registry : Registry Handler) :
      ((services.foldl addService registry).lookup path).isSome ↔
        (registry.lookup path).isSome ∨ Registered services path := by
    induction services generalizing registry with
    | nil => simp [Registered]
    | cons service rest inductionHypothesis =>
      rw [List.foldl_cons, inductionHypothesis, lookup_addService]
      simp [Registered, or_assoc]
  unfold registryOf
  rw [from_]
  simp

end Registered

section Verdict

variable {Handler : Type} {registry : Registry Handler} {policy : Policy} {config : ServerConfig}
  {ctx : RpcContext} {path : String} {request : Except Status (Option (List UInt8))}

private theorem methodName_of_invocation {kind : MethodKind} {method : String}
    (named : invocation kind path request = some method) : methodName path = .ok method := by
  unfold invocation at named
  split at named <;> cases named <;> assumption

private theorem contacts_refused {status : Status}
    (verdict : policy ctx (askedAbout path).1 (askedAbout path).2 = .error status) :
    contacts registry (some policy) config ctx path request =
      [.asked (askedAbout path).1 (askedAbout path).2 (.error status)] := by
  simp [contacts, routedCall, Call.admission, verdict]

private theorem contacts_unrouted {identity : String}
    (verdict : policy ctx (askedAbout path).1 (askedAbout path).2 = .ok identity)
    (missing : registry.lookup path = none) :
    contacts registry (some policy) config ctx path request =
      [.asked (askedAbout path).1 (askedAbout path).2 (.ok identity)] := by
  simp [contacts, routedCall, Call.admission, verdict, missing]

private theorem contacts_routed {identity : String} {svc : RegisteredService Handler}
    (verdict : policy ctx (askedAbout path).1 (askedAbout path).2 = .ok identity)
    (found : registry.lookup path = some svc) :
    contacts registry (some policy) config ctx path request =
      .asked (askedAbout path).1 (askedAbout path).2 (.ok identity) ::
        (invocation ((svc.methods.lookup path).getD .unary) path request).toList.map
          fun method => .invoked svc.handler method := by
  simp [contacts, routedCall, Call.admission, verdict, found]

/-- Whoever is invoked was found under the path, after the policy had granted what it was asked. -/
theorem invoked_of_contacts {before after : List (Contact Handler)} {handler : Handler}
    {method : String}
    (contacted : contacts registry (some policy) config ctx path request =
      before ++ .invoked handler method :: after) :
    (registry.lookup path).isSome ∧ methodName path = .ok method ∧
      ∃ identity, .asked (askedAbout path).1 (askedAbout path).2 (.ok identity) ∈ before := by
  have alone {verdict : Except Status String}
      (never : [.asked (askedAbout path).1 (askedAbout path).2 verdict] =
        before ++ .invoked handler method :: after) : False := by
    cases before with
    | nil => cases never
    | cons head rest =>
      obtain ⟨_, empty⟩ := List.cons.inj never
      exact List.append_ne_nil_of_right_ne_nil rest (List.cons_ne_nil _ _) empty.symm
  cases verdict : policy ctx (askedAbout path).1 (askedAbout path).2 with
  | error status =>
    rw [contacts_refused verdict] at contacted
    exact (alone contacted).elim
  | ok identity =>
    cases found : registry.lookup path with
    | none =>
      rw [contacts_unrouted verdict found] at contacted
      exact (alone contacted).elim
    | some svc =>
      rw [contacts_routed verdict found] at contacted
      cases before with
      | nil => cases contacted
      | cons head rest =>
        obtain ⟨rfl, handed⟩ := List.cons.inj contacted
        have member : Contact.invoked handler method ∈ rest ++ .invoked handler method :: after :=
          List.mem_append_right _ List.mem_cons_self
        rw [← List.append_eq, ← handed] at member
        obtain ⟨_, named, same⟩ := List.mem_map.mp member
        cases same
        exact ⟨rfl, methodName_of_invocation (Option.mem_toList.mp named), identity,
          List.mem_cons_self⟩

/-- A handler that the policy would grant is invoked as soon as the request message is there. -/
theorem invoked_of_registered {svc : RegisteredService Handler} {method identity : String}
    (found : registry.lookup path = some svc) (named : methodName path = .ok method)
    (verdict : policy ctx (askedAbout path).1 (askedAbout path).2 = .ok identity) :
    contacts registry (some policy) config ctx path (.ok (some [])) =
      [.asked (askedAbout path).1 (askedAbout path).2 (.ok identity),
        .invoked svc.handler method] := by
  rw [contacts_routed verdict found]
  unfold invocation
  rw [named]
  cases (svc.methods.lookup path).getD .unary <;> rfl

end Verdict

private theorem joined (service method : String) : "/" ++ service ++ "/" ++ method =
    String.ofList ('/' :: (service.toList ++ '/' :: method.toList)) := by
  apply String.toList_inj.mp
  simp

private theorem toList_dotted (name : String) : ("." ++ name).toList = '.' :: name.toList := by
  rw [String.toList_append]
  rfl

/-- A grant to everybody, for every method. -/
def grantAll : Policy := fun _ _ _ => .ok "anonymous"

/-- For every policy and request, the method that runs is checked as such if and only if the path,
when it can be routed at all, names its service and its method in full. -/
theorem authorized_iff {Handler : Type} (services : List (Service Handler)) (path : String) :
    (∀ policy config ctx request, CheckedFirst path
        (contacts (registryOf services) (some policy) config ctx path request)) ↔
      (Registered services path → '/' ∈ path.toList → WellSplit path) := by
  constructor
  · intro checked registered slashed
    obtain ⟨svc, found⟩ := Option.isSome_iff_exists.mp
      ((lookup_registryOf services path).mpr registered)
    obtain ⟨first, last, parts, clean⟩ := exists_last slashed
    have named := methodName_split parts clean
    obtain ⟨service, identity, asked, whole⟩ := checked grantAll {}
      { metadata := {}, deadline := none, cancelled := false, peer := none } (.ok (some []))
      [_] svc.handler _ [] (invoked_of_registered found named rfl)
    have about := List.mem_singleton.mp asked
    injection about with sameService sameMethod _
    refine ⟨service, String.ofList last, whole, by rwa [String.toList_ofList], ?_⟩
    rintro ⟨name, dotted, bare⟩
    have heard : askedAbout path = (String.ofList name.toList, String.ofList last) := by
      rw [whole, joined, dotted, toList_dotted, String.toList_ofList, askedAbout_dotted clean bare]
    rw [heard, String.ofList_toList, dotted] at sameService
    have longer := congrArg String.toList sameService
    rw [toList_dotted] at longer
    exact List.cons_ne_self '.' name.toList longer
  · intro split policy config ctx request before handler method after contacted
    obtain ⟨found, named, identity, asked⟩ := invoked_of_contacts contacted
    have slashed : '/' ∈ path.toList := by
      refine Classical.byContradiction fun absent => ?_
      rw [methodName_absent absent] at named
      cases named
    obtain ⟨service, last, whole, clean, full⟩ :=
      split ((lookup_registryOf services path).mp found) slashed
    have parts : path.toList = ('/' :: service.toList) ++ '/' :: last.toList := by
      rw [whole]
      simp
    rw [methodName_split parts clean, String.ofList_toList] at named
    cases named
    have about : askedAbout path = (service, method) := by
      rw [whole, joined, askedAbout_split clean ?_, String.ofList_toList, String.ofList_toList]
      rintro ⟨name, dotted, bare⟩
      refine full ⟨String.ofList name, String.toList_inj.mp ?_, by rwa [String.toList_ofList]⟩
      rw [dotted, toList_dotted, String.toList_ofList]
    rw [about] at asked
    exact ⟨service, identity, asked, whole⟩

/-- What `build_path` makes of a service without dots is checked as such. -/
theorem wellSplit_buildPath {package service method : String} (clean : '/' ∉ method.toList)
    (plain : '.' ∉ service.toList) : WellSplit (buildPath package service method) := by
  unfold buildPath
  split
  · refine ⟨service, method, rfl, clean, ?_⟩
    rintro ⟨name, rfl, _⟩
    rw [toList_dotted] at plain
    exact plain List.mem_cons_self
  · rename_i named
    refine ⟨package ++ "." ++ service, method, by simp only [String.append_assoc], clean, ?_⟩
    rintro ⟨name, dotted, bare⟩
    have parts := congrArg String.toList dotted
    rw [String.append_assoc, String.toList_append, toList_dotted, toList_dotted] at parts
    cases chars : package.toList with
    | nil => exact named (String.toList_inj.mp chars)
    | cons c rest =>
      rw [chars] at parts
      obtain ⟨_, tail⟩ := List.cons.inj parts
      rw [← tail] at bare
      exact bare (List.mem_append_right rest List.mem_cons_self)

/-- A handler that lists a path without a service is invoked for a method of that name, while the
policy is asked about nothing. -/
theorem not_authorized_bare : ¬ ∀ policy config ctx request, CheckedFirst "/Method"
    (contacts (registryOf [{ handler := (), methods := [("/Method", .unary)] }]) (some policy)
      config ctx "/Method" request) := by
  intro checked
  obtain ⟨service, identity, asked, _⟩ := checked grantAll {}
    { metadata := {}, deadline := none, cancelled := false, peer := none } (.ok (some []))
    [.asked "" "" (.ok "anonymous")] () "Method" [] rfl
  have about := List.mem_singleton.mp asked
  injection about with _ sameMethod _
  exact absurd sameMethod (by decide)

end TptProto.Grpc
