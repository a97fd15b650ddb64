/-
  Proxy/TenantScope.lean --- the query_range response cache under a multi-tenant fan-out.

  `internal/proxy`: a request passes `tenantMiddleware`, which memoises the fingerprint of its
  tenant in the context, and `compatCacheMiddleware`, which marks the context when the edge cache
  is in charge.  The fingerprint is one of the tenant header the middleware saw, and a key with
  that fingerprint says whose request it belongs to.
-/
import LokiVlProxy.Foundation.Netstring
import LokiVlProxy.Proxy.TenantSelector
import LokiVlProxy.Foundation.Run

namespace LokiVlProxy.Proxy.TenantScope

open LokiVlProxy.Foundation
open LokiVlProxy.Proxy.TenantSelector (Regexp FanoutRequest applyTenantSelectorFilter)

/-! ## Requests -/

/-- What is hashed on the way to a fingerprint. -/
inductive Hashed where
  /-- `buildRoutingNamespace`: the JSON text of the routing configuration -/
  | routing (data : Text)
  /-- `scopeFingerprint`: the namespace and the tenant -/
  | tenant (namespaceDigest orgID : Text)
  /-- `forwardedAuthFingerprint`: the scope with the forwarded headers and cookies -/
  | identity (scope : Text) (headers cookies : List (Text × Text))
  deriving DecidableEq, Repr

/-- The values of a context on this path. -/
structure Context where
  /-- `getOrgID`; empty when there is none -/
  orgID : Text
  /-- the memo under `authFingerprintKey` -/
  fingerprint : Option Text
  /-- the routing configuration under `requestRoutingKey` -/
  routing : Option Text
  /-- `compatCacheIsActive` -/
  compatActive : Bool

/-- The context of a request that has just come in. -/
def Context.background : Context := ⟨[], none, none, false⟩

/-- A request. -/
structure Request where
  /-- the method is GET -/
  isGet : Bool
  /-- the `Upgrade` header asks for a websocket -/
  websocket : Bool
  /-- the `X-Scope-OrgID` header -/
  orgID : Text
  /-- `forwardedIdentityHeaders`; the tenant header may itself be among the forwarded ones -/
  identity : Text → List (Text × Text)
  /-- the cookies that are forwarded -/
  cookies : List (Text × Text)
  /-- `FormValue` -/
  form : Text → Text
  /-- the parameters of the URL alone -/
  url : Text → Text
  /-- the `match[]` parameters of the URL -/
  urlMatch : List Text
  /-- `responseProfileCacheKey` -/
  profile : Text
  ctx : Context

/-- What the path reads of the proxy. -/
structure Settings where
  hash : Hashed → Text
  compile : Regexp
  streamResponse : Bool
  /-- the edge cache is configured -/
  compatCache : Bool
  /-- The entry of `handleQueryRange` up to the fan-out: the query as it is used from there on
  and the form with its bounds aligned, unless the request is answered before. -/
  prepare : (Text → Text) → Option (Text × (Text → Text))

/-! ## Fingerprints -/

namespace Settings

variable (p : Settings)

def scopeFingerprint (routing orgID : Text) : Text :=
  if orgID = [] then p.hash (.routing routing)
  else p.hash (.tenant (p.hash (.routing routing)) orgID)

variable (current : Text) (r : Request)

/-- `forwardedAuthFingerprint`; `current` is the routing configuration of the moment, which
counts for a context without one. -/
def forwardedAuthFingerprint : Text :=
  let scope := p.scopeFingerprint (r.ctx.routing.getD current) r.orgID
  if r.identity r.orgID = [] ∧ r.cookies = [] then scope
  else p.hash (.identity scope (r.identity r.orgID) r.cookies)

def injectAuthFingerprint : Request :=
  { r with ctx := { r.ctx with fingerprint := some (p.forwardedAuthFingerprint current r) } }

def fingerprintFromCtx : Text :=
  r.ctx.fingerprint.getD (p.forwardedAuthFingerprint current r)

def withRequestScope : Request :=
  let routing := r.ctx.routing.getD current
  let memo := if r.ctx.orgID ≠ r.orgID then none else r.ctx.fingerprint
  -- `withOrgID`
  let orgID := if r.orgID ≠ [] then r.orgID else r.ctx.orgID
  let r := { r with ctx := { r.ctx with
    fingerprint := memo, routing := some routing, orgID := orgID } }
  if memo.isSome then r else p.injectAuthFingerprint current r

/-- `shouldUseCompatCache` for query_range. -/
def shouldUseCompatCache : Bool :=
  p.compatCache && r.isGet && !p.streamResponse && !r.websocket

/-- `tenantMiddleware` and then `compatCacheMiddleware`, for a request that neither the tenant
check nor the edge cache answers. -/
def middleware : Request :=
  let r := p.withRequestScope current { r with ctx := .background }
  if p.shouldUseCompatCache r then { r with ctx := { r.ctx with compatActive := true } } else r

/-! ## The handler -/

def maxMultiTenantFanout : Nat := 64

/-- `splitMultiTenantOrgIDs`: the parts between bars, trimmed, each kept once. -/
def splitMultiTenantOrgIDs (orgID : Text) : List Text :=
  (orgID.splitOn '|').foldl (fun out piece =>
    let piece := trimSpace piece
    if piece = [] ∨ piece ∈ out then out else out ++ [piece]) []

/-- The tenants of a header that names several; a header that does not is no fan-out. -/
def fanoutTenants (orgID : Text) : Option (List Text) :=
  let orgID := trimSpace orgID
  if orgID.contains '|' then
    let tenantIDs := splitMultiTenantOrgIDs orgID
    if tenantIDs.length < 2 then none else some tenantIDs
  else none

/-- The request with the parameters that `applyTenantSelectorFilter` leaves: a rewritten URL
also becomes the form. -/
def filtered (f : FanoutRequest) : Request :=
  let url := if r.url "query".toList ≠ [] then Function.update r.url "query".toList f.query
    else r.url
  if r.url "query".toList ≠ [] ∨ r.urlMatch ≠ [] then
    { r with url := url, form := url, urlMatch := f.matchers, orgID := f.orgID }
  else r

/-- `handleMultiTenantFanout`: the sub-requests, one for each tenant that the selector leaves,
on the context of the request.  `none` says that the request is not a fan-out; one that is too
wide, whose selector does not compile or that is answered from the merge cache has none. -/
def handleMultiTenantFanout (merged : Bool) (r : Request) : Option (List Request) :=
  (fanoutTenants r.orgID).map fun tenantIDs =>
    if tenantIDs.length > maxMultiTenantFanout then []
    else
      match applyTenantSelectorFilter p.compile
          ⟨r.url "query".toList, r.urlMatch, r.orgID⟩ tenantIDs with
      | .error _ => []
      | .ok (f, filteredTenants) =>
        if merged then []
        else filteredTenants.map fun tenantID => { filtered r f with orgID := tenantID }

/-- `cacheable`: the handler uses the response cache itself. -/
def cacheable : Bool := !p.streamResponse && !r.ctx.compatActive

/-- The parameters in `queryRangeCacheKey`. -/
def keyParams : List Text :=
  ["start", "end", "step", "limit", "direction", "interval", "since", "time"].map String.toList

/-- How the keys begin. -/
def keyHead : Text := "query_range:v3:line-v3:".toList

def queryRangeCacheKey (logqlQuery : Text) : Text :=
  keyHead ++ parts (logqlQuery :: keyParams.map r.form ++
    [r.profile, p.fingerprintFromCtx current r])

end Settings

/-! ## Runs -/

/-- A request or sub-request under way. -/
inductive Task where
  /-- about to enter `handleQueryRange` -/
  | pending (r : Request)
  /-- its lookup missed; it computes the answer and may store it under its key -/
  | missed (key orgID : Text)
  /-- finished, or waiting for its sub-requests -/
  | done

/-- A cached body, with the tenant header of the request that stored it. -/
structure Entry where
  body : Text
  storedBy : Text
  deriving DecidableEq, Repr

/-- A body served from the cache: the tenant header of the reader, and the entry. -/
structure Read where
  orgID : Text
  entry : Entry
  deriving DecidableEq, Repr

/-- The tasks, the cache and the reads so far. -/
structure State where
  tasks : List Task
  cache : Text → Option Entry
  reads : List Read

/-- Nothing cached, nothing under way. -/
def State.start : State := ⟨[], fun _ => none, []⟩

/-- One step of one task, or of the cache.  `current` is the routing configuration of the
moment. -/
inductive Event where
  /-- a request comes through the middleware -/
  | arrive (current : Text) (r : Request)
  /-- a task goes through `handleQueryRange`, up to the lookup; `bypass` is
  `shouldBypassRecentTailCache`, `merged` a hit in the merge cache -/
  | handle (i : Nat) (current : Text) (bypass merged : Bool)
  /-- a task that missed stores its answer -/
  | store (i : Nat) (body : Text)
  /-- an entry goes out of the cache -/
  | evict (key : Text)

namespace Settings

variable (p : Settings)

/-- The lookup of a request that is not a fan-out. -/
def lookup (s : State) (i : Nat) (current : Text) (bypass : Bool) (r : Request)
    (logqlQuery : Text) : State :=
  if p.cacheable r then
    let key := p.queryRangeCacheKey current r logqlQuery
    match s.cache key with
    | some entry =>
      if bypass then { s with tasks := s.tasks.set i (.missed key r.orgID) }
      else { s with tasks := s.tasks.set i .done, reads := ⟨r.orgID, entry⟩ :: s.reads }
    | none => { s with tasks := s.tasks.set i (.missed key r.orgID) }
  else { s with tasks := s.tasks.set i .done }

/-- `handleQueryRange` for a task. -/
def handleQueryRange (s : State) (i : Nat) (current : Text) (bypass merged : Bool) (r : Request) :
    State :=
  match p.prepare r.form with
  | none => { s with tasks := s.tasks.set i .done }
  | some (logqlQuery, form) =>
    match p.handleMultiTenantFanout merged { r with form := form } with
    | some subs => { s with tasks := s.tasks.set i .done ++ subs.map Task.pending }
    | none => p.lookup s i current bypass { r with form := form } logqlQuery

/-- One event. -/
def step (s : State) : Event → State
  | .arrive current r => { s with tasks := s.tasks ++ [.pending (p.middleware current r)] }
  | .handle i current bypass merged =>
    match s.tasks[i]? with
    | some (.pending r) => p.handleQueryRange s i current bypass merged r
    | _ => s
  | .store i body =>
    match s.tasks[i]? with
    | some (.missed key orgID) =>
      { s with
        tasks := s.tasks.set i .done
        cache := Function.update s.cache key (some ⟨body, orgID⟩) }
    | _ => s
  | .evict key => { s with cache := Function.update s.cache key none }

end Settings

open List

namespace Settings

variable {p : Settings}

/-! ## What a key says -/

/-- A fingerprint of requests with this tenant header. -/
def FingerprintOf (p : Settings) (orgID fingerprint : Text) : Prop :=
  ∃ routing, fingerprint = p.scopeFingerprint routing orgID ∨
    ∃ headers cookies,
      fingerprint = p.hash (.identity (p.scopeFingerprint routing orgID) headers cookies)

/-- A cache key with a fingerprint of this tenant header. -/
def KeyOf (p : Settings) (orgID key : Text) : Prop :=
  ∃ fields fingerprint, key = keyHead ++ parts (fields ++ [fingerprint]) ∧
    p.FingerprintOf orgID fingerprint

variable {orgID orgID' : Text} {r : Request} {merged : Bool} {subs : List Request} {s : State}

section

variable (hhash : Function.Injective p.hash)

include hhash

theorem scopeFingerprint_inj {routing routing' : Text}
    (h : p.scopeFingerprint routing orgID = p.scopeFingerprint routing' orgID') :
    orgID = orgID' := by
  simp only [scopeFingerprint] at h
  split_ifs at h with hnil hnil' hnil'
  · rw [hnil, hnil']
  · exact absurd (hhash h) (by simp)
  · exact absurd (hhash h) (by simp)
  · exact (Hashed.tenant.inj (hhash h)).2

theorem scopeFingerprint_ne_identity (routing orgID scope : Text)
    (headers cookies : List (Text × Text)) :
    p.scopeFingerprint routing orgID ≠ p.hash (.identity scope headers cookies) := by
  simp only [scopeFingerprint]
  split_ifs <;> exact fun h => absurd (hhash h) (by simp)

/-- A fingerprint belongs to one tenant. -/
theorem FingerprintOf.unique {fingerprint : Text} (h : p.FingerprintOf orgID fingerprint)
    (h' : p.FingerprintOf orgID' fingerprint) : orgID = orgID' := by
  obtain ⟨routing, rfl | ⟨headers, cookies, rfl⟩⟩ := h
  · obtain ⟨routing', heq | ⟨headers', cookies', heq⟩⟩ := h'
    · exact scopeFingerprint_inj hhash heq
    · exact absurd heq (scopeFingerprint_ne_identity hhash _ _ _ _ _)
  · obtain ⟨routing', heq | ⟨headers', cookies', heq⟩⟩ := h'
    · exact absurd heq.symm (scopeFingerprint_ne_identity hhash _ _ _ _ _)
    · exact scopeFingerprint_inj hhash (Hashed.identity.inj (hhash heq)).1

/-- A cache key belongs to one tenant. -/
theorem KeyOf.unique {key : Text} (h : p.KeyOf orgID key) (h' : p.KeyOf orgID' key) :
    orgID = orgID' := by
  obtain ⟨fields, fingerprint, rfl, hfingerprint⟩ := h
  obtain ⟨fields', fingerprint', heq, hfingerprint'⟩ := h'
  have hparts := parts_injective (append_cancel_left heq)
  obtain ⟨-, hlast⟩ := append_inj' hparts rfl
  obtain rfl := singleton_injective hlast
  exact hfingerprint.unique hhash hfingerprint'

end

variable (current : Text)

theorem fingerprintOf_forwarded (r : Request) :
    p.FingerprintOf r.orgID (p.forwardedAuthFingerprint current r) := by
  refine ⟨r.ctx.routing.getD current, ?_⟩
  simp only [forwardedAuthFingerprint]
  split_ifs
  · exact .inl rfl
  · exact .inr ⟨_, _, rfl⟩

/-- A request whose context has a memo for its own tenant header. -/
def Scoped (p : Settings) (r : Request) : Prop :=
  ∃ fingerprint, r.ctx.fingerprint = some fingerprint ∧ p.FingerprintOf r.orgID fingerprint

/-- A scoped request is looked up under a key of its tenant. -/
theorem Scoped.keyOf (h : p.Scoped r) (current logqlQuery : Text) :
    p.KeyOf r.orgID (p.queryRangeCacheKey current r logqlQuery) := by
  obtain ⟨fingerprint, hmemo, hfingerprint⟩ := h
  refine ⟨logqlQuery :: keyParams.map r.form ++ [r.profile], fingerprint, ?_, hfingerprint⟩
  rw [queryRangeCacheKey, fingerprintFromCtx, hmemo, Option.getD_some, append_assoc]
  rfl

/-! ## Requests in flight -/

theorem scoped_middleware (r : Request) :
    p.Scoped (p.middleware current r) ∧ (p.middleware current r).orgID = r.orgID := by
  have hscope : ∀ q : Request, q.ctx = .background →
      p.Scoped (p.withRequestScope current q) ∧ (p.withRequestScope current q).orgID = q.orgID := by
    intro q hq
    -- a fresh context has no memo, so the fingerprint is computed here
    have hmemo : (if q.ctx.orgID ≠ q.orgID then none else q.ctx.fingerprint) = none := by
      rw [hq]
      exact ite_self none
    simp only [withRequestScope, hmemo]
    exact ⟨⟨_, rfl, fingerprintOf_forwarded current _⟩, rfl⟩
  obtain ⟨⟨fingerprint, hmemo, hfingerprint⟩, horg⟩ :=
    hscope { r with ctx := .background } rfl
  simp only [middleware]
  split_ifs <;> exact ⟨⟨fingerprint, hmemo, hfingerprint⟩, horg⟩

theorem shouldUseCompatCache_withRequestScope (r : Request) :
    p.shouldUseCompatCache (p.withRequestScope current r) = p.shouldUseCompatCache r := by
  simp only [withRequestScope]
  split_ifs <;> rfl

theorem cacheable_middleware (h : p.streamResponse = true ∨ p.shouldUseCompatCache r = true) :
    p.cacheable (p.middleware current r) = false := by
  rcases h with hstream | hcompat
  · simp [cacheable, hstream]
  · have hscoped : p.shouldUseCompatCache
        (p.withRequestScope current { r with ctx := .background }) = true := by
      rw [shouldUseCompatCache_withRequestScope]
      exact hcompat
    simp [cacheable, middleware, hscoped]

theorem exists_request_of_fanout (hfanout : p.handleMultiTenantFanout merged r = some subs) :
    ∃ q : Request, q.ctx = r.ctx ∧ ∀ sub ∈ subs, ∃ tenantID, sub = { q with orgID := tenantID } := by
  have hfiltered : ∀ f, (filtered r f).ctx = r.ctx := by
    intro f
    rw [filtered]
    split_ifs <;> rfl
  obtain ⟨tenantIDs, -, rfl⟩ := Option.map_eq_some_iff.mp hfanout
  split
  · exact ⟨r, rfl, by simp⟩
  · split
    · exact ⟨r, rfl, by simp⟩
    · next f filteredTenants hfilter =>
      refine ⟨filtered r f, hfiltered f, fun sub hsub => ?_⟩
      split at hsub
      · cases hsub
      · obtain ⟨tenantID, -, rfl⟩ := mem_map.mp hsub
        exact ⟨tenantID, rfl⟩

/-- The requests of a fanout share one key. -/
theorem queryRangeCacheKey_of_fanout (hmemo : r.ctx.fingerprint.isSome)
    (hfanout : p.handleMultiTenantFanout merged r = some subs) {sub sub' : Request}
    (hsub : sub ∈ subs) (hsub' : sub' ∈ subs) (current logqlQuery : Text) :
    p.queryRangeCacheKey current sub logqlQuery =
      p.queryRangeCacheKey current sub' logqlQuery := by
  obtain ⟨fingerprint, hfingerprint⟩ := Option.isSome_iff_exists.mp hmemo
  obtain ⟨q, hctx, hsubs⟩ := exists_request_of_fanout hfanout
  obtain ⟨tenantID, rfl⟩ := hsubs sub hsub
  obtain ⟨tenantID', rfl⟩ := hsubs sub' hsub'
  simp only [queryRangeCacheKey, fingerprintFromCtx, hctx, hfingerprint, Option.getD_some]

theorem fanoutTenants_of_fanout (hfanout : p.handleMultiTenantFanout merged r = some subs) :
    fanoutTenants r.orgID ≠ none := by
  intro hnone
  rw [handleMultiTenantFanout, hnone] at hfanout
  cases hfanout

/-! ## Runs -/

/-- A request that names several tenants comes while responses are streamed, or is left to the
edge cache. -/
def FanoutsUncached (p : Settings) : Event → Prop
  | .arrive _ r => fanoutTenants r.orgID ≠ none →
      p.streamResponse = true ∨ p.shouldUseCompatCache r = true
  | _ => True

/-- A task that keeps tenants apart. -/
def TaskKept (p : Settings) : Task → Prop
  | .pending r => p.cacheable r = false ∨ fanoutTenants r.orgID = none ∧ p.Scoped r
  | .missed key orgID => p.KeyOf orgID key
  | .done => True

/-- What holds in every state: tasks and entries keep tenants apart, and so did all reads. -/
structure Isolated (p : Settings) (s : State) : Prop where
  tasks : ∀ task ∈ s.tasks, p.TaskKept task
  cache : ∀ key entry, s.cache key = some entry → p.KeyOf entry.storedBy key
  reads : ∀ read ∈ s.reads, read.orgID = read.entry.storedBy

theorem isolated_start : p.Isolated .start where
  tasks := by simp [State.start]
  cache := by simp [State.start]
  reads := by simp [State.start]

theorem Isolated.setTask (h : p.Isolated s) (i : Nat) {task : Task} (htask : p.TaskKept task) :
    p.Isolated { s with tasks := s.tasks.set i task } where
  tasks task' hmem := by
    rcases mem_or_eq_of_mem_set hmem with hold | rfl
    · exact h.tasks task' hold
    · exact htask
  cache := h.cache
  reads := h.reads

theorem Isolated.finish (h : p.Isolated s) (i : Nat) :
    p.Isolated { s with tasks := s.tasks.set i .done } :=
  h.setTask i trivial

section

variable (hhash : Function.Injective p.hash) (h : p.Isolated s)

include hhash h

/-- A lookup keeps the cache isolated. -/
theorem Isolated.lookup (hr : p.cacheable r = false ∨ p.Scoped r) (i : Nat) (current : Text)
    (bypass : Bool) (logqlQuery : Text) :
    p.Isolated (p.lookup s i current bypass r logqlQuery) := by
  rw [Settings.lookup]
  cases hcacheable : p.cacheable r with
  | false => exact h.finish i
  | true =>
    have hscoped : p.Scoped r := hr.resolve_left (by simp [hcacheable])
    have hkey := hscoped.keyOf current logqlQuery
    simp only [if_true]
    split
    · next entry hentry =>
      split_ifs
      · exact h.setTask i hkey
      · -- the entry was stored under a key of its own tenant, which is this one
        have hsame : r.orgID = entry.storedBy := hkey.unique hhash (h.cache _ entry hentry)
        have hdone := h.finish i
        refine ⟨hdone.tasks, hdone.cache, fun read hread => ?_⟩
        rcases mem_cons.mp hread with rfl | hold
        · exact hsame
        · exact h.reads read hold
    · exact h.setTask i hkey

/-- A request keeps the cache isolated. -/
theorem Isolated.handleQueryRange (hr : p.TaskKept (.pending r)) (i : Nat) (current : Text)
    (bypass merged : Bool) : p.Isolated (p.handleQueryRange s i current bypass merged r) := by
  rw [Settings.handleQueryRange]
  split
  · exact h.finish i
  · next logqlQuery form hprepare =>
    split
    · next subs hfanout =>
      have hdone := h.finish i
      refine ⟨fun task hmem => ?_, hdone.cache, hdone.reads⟩
      rcases mem_append.mp hmem with hold | hsub
      · exact hdone.tasks task hold
      · obtain ⟨sub, hin, rfl⟩ := mem_map.mp hsub
        have hnot : p.cacheable r = false :=
          hr.resolve_right fun hkept => fanoutTenants_of_fanout hfanout hkept.1
        obtain ⟨q, hctx, hsubs⟩ := exists_request_of_fanout hfanout
        obtain ⟨tenantID, rfl⟩ := hsubs sub hin
        left
        rw [cacheable, hctx]
        exact hnot
    · refine h.lookup hhash ?_ i current bypass logqlQuery
      exact hr.imp (fun hnot => hnot) (fun hkept => hkept.2)

/-- Every step without a cached fanout keeps the cache isolated. -/
theorem Isolated.step {e : Event} (he : p.FanoutsUncached e) : p.Isolated (p.step s e) := by
  cases e with
  | arrive current r =>
    refine ⟨fun task hmem => ?_, h.cache, h.reads⟩
    rcases mem_append.mp hmem with hold | hnew
    · exact h.tasks task hold
    · obtain rfl := mem_singleton.mp hnew
      obtain ⟨hscoped, horg⟩ := scoped_middleware (p := p) current r
      cases hfanout : fanoutTenants r.orgID with
      | none => exact .inr ⟨by rw [horg, hfanout], hscoped⟩
      | some tenantIDs =>
        exact .inl (cacheable_middleware current (he (by simp [hfanout])))
  | handle i current bypass merged =>
    simp only [Settings.step]
    split
    · next r hr => exact h.handleQueryRange hhash (h.tasks _ (mem_of_getElem? hr)) i _ _ _
    · exact h
  | store i body =>
    simp only [Settings.step]
    split
    · next key orgID htask =>
      have hkey : p.KeyOf orgID key := h.tasks _ (mem_of_getElem? htask)
      have hdone := h.finish i
      refine ⟨hdone.tasks, fun key' entry hentry => ?_, hdone.reads⟩
      simp only [Function.update_apply] at hentry
      split_ifs at hentry with hsame
      · obtain rfl := Option.some.inj hentry
        rw [hsame]
        exact hkey
      · exact h.cache key' entry hentry
    · exact h
  | evict key =>
    refine ⟨h.tasks, fun key' entry hentry => ?_, h.reads⟩
    simp only [Settings.step, Function.update_apply] at hentry
    split_ifs at hentry
    exact h.cache key' entry hentry

end

/-- Along every run in which no fan-out uses the response cache, a body is served only to the
tenant header that stored it, and two requests under way that use the cache under one key have
the same tenant header. -/
theorem response_cache_isolates_tenants (p : Settings) (hhash : Function.Injective p.hash)
    (es : List Event) (hes : ∀ e ∈ es, p.FanoutsUncached e) :
    (∀ read ∈ (es.foldl p.step .start).reads, read.orgID = read.entry.storedBy) ∧
      ∀ r r', Task.pending r ∈ (es.foldl p.step .start).tasks →
        Task.pending r' ∈ (es.foldl p.step .start).tasks →
        p.cacheable r = true → p.cacheable r' = true →
        ∀ current current' logqlQuery logqlQuery',
          p.queryRangeCacheKey current r logqlQuery =
            p.queryRangeCacheKey current' r' logqlQuery' → r.orgID = r'.orgID := by
  have hisolated : p.Isolated (es.foldl p.step .start) :=
    run_invariant_of_forall (fun s e h he => h.step hhash he) isolated_start hes
  refine ⟨hisolated.reads, fun r r' hr hr' hcache hcache' current current' q q' hkey => ?_⟩
  have hscoped : ∀ {r : Request}, Task.pending r ∈ (es.foldl p.step .start).tasks →
      p.cacheable r = true → p.Scoped r := by
    intro r hr hcache
    exact ((hisolated.tasks _ hr).resolve_left (by simp [hcache])).2
  have hkeyOf := (hscoped hr hcache).keyOf current q
  rw [hkey] at hkeyOf
  exact hkeyOf.unique hhash ((hscoped hr' hcache').keyOf current' q')

/-! ## Two runs -/

/-- A hash without collisions. -/
def plainHash : Hashed → Text
  | .routing data => 'r' :: data
  | .tenant namespaceDigest orgID => 't' :: parts [namespaceDigest, orgID]
  | .identity scope headers cookies =>
    'i' :: parts [scope, parts (headers.map fun h => parts [h.1, h.2]),
      parts (cookies.map fun c => parts [c.1, c.2])]

theorem plainHash_injective : Function.Injective plainHash := by
  have hpairs : Function.Injective fun l : List (Text × Text) =>
      parts (l.map fun h => parts [h.1, h.2]) := by
    refine parts_injective.comp (map_injective_iff.mpr fun h h' heq => ?_)
    obtain ⟨hname, hvalue⟩ := cons.inj (parts_injective heq)
    exact Prod.ext hname (singleton_injective hvalue)
  intro x y h
  cases x <;> cases y <;> simp only [plainHash, cons.injEq, Char.reduceEq, false_and] at h
  case routing.routing data data' => rw [h.2]
  case tenant.tenant n o n' o' =>
    obtain ⟨hn, ho⟩ := cons.inj (parts_injective h.2)
    rw [hn, singleton_injective ho]
  case identity.identity s hs cs s' hs' cs' =>
    obtain ⟨hscope, htail⟩ := cons.inj (parts_injective h.2)
    obtain ⟨hheaders, hcookies⟩ := cons.inj htail
    rw [hscope, hpairs hheaders, hpairs (singleton_injective hcookies)]

/-- A proxy that prepares nothing, with or without an edge cache. -/
def plainProxy (compatCache : Bool) : Settings where
  hash := plainHash
  compile := fun _ => .error []
  streamResponse := false
  compatCache := compatCache
  prepare := fun form => some (form "query".toList, form)

/-- A request for tenants, with no parameters but the selector. -/
def plainRequest (isGet : Bool) (orgID : Text) : Request where
  isGet := isGet
  websocket := false
  orgID := orgID
  identity := fun _ => []
  cookies := []
  form := fun _ => []
  url := fun _ => []
  urlMatch := []
  profile := []
  ctx := .background

/-- One tenant's request, another's, and the first one's again. -/
def requestsOfTwo : List Event :=
  [.arrive [] (plainRequest true ['a']), .handle 0 [] false false, .store 0 ['x'],
    .arrive [] (plainRequest true ['b']), .handle 1 [] false false,
    .arrive [] (plainRequest true ['a']), .handle 2 [] false false]

theorem response_cache_isolates_two_tenants :
    (requestsOfTwo.foldl (plainProxy false).step .start).reads = [⟨['a'], ⟨['x'], ['a']⟩⟩] ∧
      ∀ read ∈ (requestsOfTwo.foldl (plainProxy false).step .start).reads,
        read.orgID = read.entry.storedBy := by
  have hsingle : fanoutTenants ['a'] = none ∧ fanoutTenants ['b'] = none := by decide
  have hrun : ∀ e ∈ requestsOfTwo, (plainProxy false).FanoutsUncached e := by
    simp [requestsOfTwo, FanoutsUncached, plainRequest, hsingle]
  refine ⟨?_, (response_cache_isolates_tenants _ plainHash_injective requestsOfTwo hrun).1⟩
  decide +kernel

/-- One request for `a|b` without an edge cache: the sub-request of `b` is served the body of
`a`. -/
theorem fanout_serves_other_tenant :
    ([.arrive [] (plainRequest true ['a', '|', 'b']), .handle 0 [] false false,
      .handle 1 [] false false, .store 1 ['x'], .handle 2 [] false false].foldl
        (plainProxy false).step .start).reads = [⟨['b'], ⟨['x'], ['a']⟩⟩] := by
  decide +kernel

end Settings

end LokiVlProxy.Proxy.TenantScope
