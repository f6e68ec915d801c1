import Velcrux.Storage.Ownership
import Velcrux.Storage.Proofs.DedupProofs

/-!
# Only owners are served

A tenant is served what the access control table lists it for, and it is listed by its own calls only.
-/

namespace Velcrux.Storage

open Chunking NamespacedChunkStore

variable {env : OwnershipEnv} {s s' s2 : NamespacedChunkStore} {tenantId : String} {h : Hash} {P : Hash → Prop}
variable {fate : DiskFate}

namespace NamespacedChunkStore

def Lists (s s' : NamespacedChunkStore) (tenantId : String) (P : Hash → Prop) : Prop :=
  s'.policy = s.policy ∧ ∀ t k, s'.authorized t k = true → s.authorized t k = true ∨ t = tenantId ∧ P k

theorem Lists.of_same (hpolicy : s'.policy = s.policy) (hacl : s'.aclTable = s.aclTable) :
    Lists s s' tenantId P :=
  ⟨hpolicy, fun t k hauth => .inl (by rwa [authorized, hacl] at hauth)⟩

theorem Lists.trans (h1 : Lists s s' tenantId P) (h2 : Lists s' s2 tenantId P) : Lists s s2 tenantId P :=
  ⟨h2.1.trans h1.1, fun t k hauth => (h2.2 t k hauth).elim (h1.2 t k) .inr⟩

theorem lists_authorize (hP : P h) : Lists s (s.authorize tenantId h) tenantId P := by
  refine ⟨rfl, fun t k hauth => ?_⟩
  unfold authorized authorize at hauth
  by_cases hk : k = h
  · subst hk
    by_cases ht : t = tenantId
    · exact .inr ⟨ht, hP⟩
    · unfold authorized
      cases hentry : s.aclTable.lookup k with
      | none => simp [hentry, ChunkAclEntry.isAuthorized, ChunkAclEntry.authorizeTenant,
          ChunkAclEntry.new, ht, Ne.symm ht] at hauth
      | some entry => simpa [hentry, ChunkAclEntry.isAuthorized, ChunkAclEntry.authorizeTenant, ht]
          using hauth
  · rw [AList.lookup_insert_ne hk] at hauth
    exact .inl hauth

theorem lists_authorizeAll {chunks : List Bytes} (hP : ∀ c ∈ chunks, P (env.H c)) :
    Lists s (s.authorizeAll env.toDedupEnv tenantId chunks) tenantId P := by
  induction chunks generalizing s with
  | nil => exact .of_same rfl rfl
  | cons chunk rest ih =>
    have hrest : ∀ c ∈ rest, P (env.H c) := fun c hc => hP c (by simp [hc])
    rw [authorizeAll]
    split
    · rename_i hash hhash
      have hchunk : env.H chunk = hash := by
        unfold ChunkDesc.of at hhash
        split_ifs at hhash
        exact Option.some.inj hhash
      exact (lists_authorize (hchunk ▸ hP chunk (by simp))).trans (ih hrest)
    · exact ih hrest

section

variable (hp : s.policy = .proofOfOwnership)

include hp

theorem lists_putForTenant {data : Bytes} (hP : P (env.H data)) :
    Lists s (s.putForTenant env.toDedupEnv fate tenantId h data).1 tenantId P := by
  unfold putForTenant
  split_ifs with hdata
  · exact .of_same rfl rfl
  · rw [hp]
    dsimp only
    split
    · exact .of_same rfl rfl
    · rename_i store _
      have hstore : Lists s (s.setStore store .shared) tenantId P := .of_same rfl rfl
      exact hstore.trans (lists_authorize (not_not.mp hdata ▸ hP))

theorem lists_ingestFileForTenant {mode : ChunkMode} {params : ChunkParams} {reads : List Bytes}
    (hP : ∀ chunks, chunkReader mode params params.max reads = .ok chunks → ∀ c ∈ chunks, P (env.H c.2)) :
    Lists s (s.ingestFileForTenant env.toDedupEnv fate tenantId mode params reads).1 tenantId P := by
  have hinto : Lists s (s.ingestInto env.toDedupEnv fate .shared s.sharedStore mode params reads).1
      tenantId P := by
    unfold ingestInto
    split_ifs <;> exact .of_same rfl rfl
  unfold ingestFileForTenant
  rw [hp]
  dsimp only
  split
  · rename_i heq
    exact heq ▸ hinto
  · rename_i count heq
    rw [heq] at hinto
    split_ifs
    · exact hinto
    · split
      · exact hinto
      · rename_i chunks hchunks
        refine hinto.trans (lists_authorizeAll fun c hc => ?_)
        obtain ⟨x, hx, rfl⟩ := List.mem_map.mp hc
        exact hP chunks hchunks x hx

theorem lists_copyChunkForTenant {dst : Bytes} {dstOffset : ℕ} :
    Lists s (s.copyChunkForTenant env.toDedupEnv fate tenantId h dst dstOffset).1 tenantId P := by
  unfold copyChunkForTenant chunkSource quarantine countPoison countProbe
  refine .of_same ?_ ?_ <;> dsimp only <;> grind

theorem lists_authorizeTenantWithPow {token : Bytes}
    (hP : ∀ d, env.H d = h → token = env.computeToken h d → P h) :
    Lists s (s.authorizeTenantWithPow env fate tenantId h token).1 tenantId P := by
  unfold authorizeTenantWithPow
  rw [if_neg (not_not.mpr hp)]
  split
  · exact .of_same rfl rfl
  · rename_i store data hget
    have hstore : Lists s (s.setStore store .shared) tenantId P := .of_same rfl rfl
    split_ifs with htoken
    · refine hstore.trans (lists_authorize (hP data ?_ htoken.symm))
      unfold LocalChunkStore.getSync at hget
      split at hget
      · rename_i found _ _
        by_cases hdata : env.H found ≠ h
        · rw [if_pos hdata] at hget
          cases hget
        · rw [if_neg hdata] at hget
          obtain rfl := Except.ok.inj (Prod.mk.inj hget).2
          exact not_not.mp hdata
      · cases hget
    · exact hstore

theorem lists_after {x : String × OwnerCall} (hx : Honest env s x) :
    Lists s (s.after env x) x.1 (x.2.Supplies env) := by
  obtain ⟨tenantId, call⟩ := x
  cases call with
  | store call =>
    cases call with
    | put fate h data => exact lists_putForTenant hp rfl
    | ingest fate mode params reads =>
      exact lists_ingestFileForTenant hp fun chunks hchunks c hc => ⟨chunks, hchunks, c, hc, rfl⟩
    | contains h =>
      unfold after step containsForTenant
      rw [hp]
      dsimp only [Prod.map]
      split_ifs <;> exact .of_same rfl rfl
    | copy fate h dst dstOffset => exact lists_copyChunkForTenant hp
    | bloomFilter fate =>
      unfold after step bloomFilterForTenant
      rw [hp]
      exact .of_same rfl rfl
  | verify h data token =>
    unfold after verifyAndAuthorizePow
    dsimp only
    split_ifs with htoken
    · exact .of_same rfl rfl
    · exact lists_authorize (.inl (hx (not_not.mp htoken)))
  | authorize fate h token =>
    exact lists_authorizeTenantWithPow hp fun d hd htoken => ⟨d, hd, htoken⟩

theorem authorized_of_serves (hserves : s.Serves env tenantId h) : s.authorized tenantId h = true := by
  rcases hserves with hcontains | ⟨fate, dst, dstOffset, hcopy⟩
  · unfold containsForTenant at hcontains
    rw [hp] at hcontains
    split_ifs at hcontains with _ hauth
    exact hauth
  · by_contra hnot
    have hrefused : ∃ s' e, s.chunkSource env.toDedupEnv tenantId h = (s', .error e) := by
      unfold chunkSource
      rw [hp]
      cases hentry : s.aclTable.lookup h with
      | none => exact ⟨_, _, rfl⟩
      | some entry =>
        have hentryAuth : entry.isAuthorized tenantId = false := by
          simpa [authorized, hentry] using hnot
        exact ⟨s.countProbe, _, if_neg (by simp [hentryAuth])⟩
    obtain ⟨s', e, hrefused⟩ := hrefused
    unfold copyChunkForTenant at hcopy
    rw [hrefused] at hcopy
    rcases hcopy with hok | hne
    · exact absurd hok (by simp [Except.toBool])
    · exact hne rfl

end

end NamespacedChunkStore

/-- In every history whose accepted proofs are about data with the right digest, only owners are served. -/
theorem onlyOwners_of_honest {calls : List (NamespacedChunkStore × String × OwnerCall)}
    (hrun : Histories env (Honest env) calls s) : OnlyOwners env calls s := by
  have hinv : s.policy = .proofOfOwnership ∧ ∀ t k, s.authorized t k = true →
      ∃ x ∈ calls, x.2.1 = t ∧ x.2.2.Supplies env k := by
    refine Transition.Run.invariant (I := fun calls s => s.policy = .proofOfOwnership ∧ ∀ t k,
      s.authorized t k = true → ∃ x ∈ calls, x.2.1 = t ∧ x.2.2.Supplies env k) ?_ ?_ hrun
    · rintro s ⟨dirs, shared, rfl⟩
      simp [authorized, new]
    · rintro calls s x s' - ⟨hp, hlisted⟩ hhonest hstep
      obtain rfl := Option.some.inj hstep
      have hlists := lists_after hp hhonest
      refine ⟨hlists.1.trans hp, fun t k hauth => ?_⟩
      rcases hlists.2 t k hauth with hold | ⟨rfl, hsupplies⟩
      · obtain ⟨y, hy, hrest⟩ := hlisted t k hold
        exact ⟨y, List.mem_cons_of_mem _ hy, hrest⟩
      · exact ⟨(s, x), List.mem_cons_self, rfl, hsupplies⟩
  intro t k hserves
  exact hinv.2 t k (authorized_of_serves hinv.1 hserves)

def plainEnv : OwnershipEnv :=
  ⟨⟨⟨fun data => .repeated (UInt8.ofNat data.length), fun _ => (64, 1)⟩, asciiTables⟩,
    fun h data => h.bytes ++ data⟩

def forgery : List (String × OwnerCall) :=
  [("acme", .store (.put .sound (.repeated 1) [7])),
    ("umbra", .verify (.repeated 1) [] (Hash.repeated 1).bytes)]

def runOwners (x : List (NamespacedChunkStore × String × OwnerCall) × NamespacedChunkStore)
    (call : String × OwnerCall) : List (NamespacedChunkStore × String × OwnerCall) × NamespacedChunkStore :=
  ((x.2, call) :: x.1, x.2.after plainEnv call)

def emptyStore : NamespacedChunkStore := .new plainEnv.toDedupEnv .proofOfOwnership (fun _ => ∅) ∅

/-- The second tenant fails with a wrong token and then proves that it has the chunk. -/
def secondOwner : List (String × OwnerCall) :=
  [("acme", .store (.put .sound (.repeated 1) [7])),
    ("umbra", .verify (.repeated 1) [7] []),
    ("umbra", .verify (.repeated 1) [7] ((Hash.repeated 1).bytes ++ [7]))]

theorem onlyOwners_secondOwner : ∃ calls s, Histories plainEnv (Honest plainEnv) calls s ∧
    s.Serves plainEnv "umbra" (.repeated 1) ∧ OnlyOwners plainEnv calls s := by
  have hrun : Histories plainEnv (Honest plainEnv) (secondOwner.foldl runOwners ([], emptyStore)).1
      (secondOwner.foldl runOwners ([], emptyStore)).2 :=
    .step (.step (.step (.start ⟨_, _, rfl⟩) trivial rfl) (fun _ => by decide) rfl)
      (fun _ => by decide) rfl
  exact ⟨_, _, hrun, .inl (by decide), onlyOwners_of_honest hrun⟩

theorem not_onlyOwners_forgery : ∃ calls s, Histories plainEnv (fun _ _ => True) calls s ∧
    ¬ OnlyOwners plainEnv calls s := by
  refine ⟨(forgery.foldl runOwners ([], emptyStore)).1, (forgery.foldl runOwners ([], emptyStore)).2,
    .step (.step (.start ⟨_, _, rfl⟩) trivial rfl) trivial rfl, fun howners => ?_⟩
  have hcopies : ((forgery.foldl runOwners ([], emptyStore)).2.copyChunkForTenant plainEnv.toDedupEnv .sound
      "umbra" (.repeated 1) [] 0).2.2 = [7] := by decide
  obtain ⟨x, hx, ht, hsupplies⟩ := howners "umbra" (.repeated 1)
    (.inr ⟨.sound, [], 0, .inr (by rw [hcopies]; simp)⟩)
  rcases List.mem_pair.mp hx with rfl | rfl
  · -- neither the data nor the token is that of data of one byte
    rcases hsupplies with hdata | ⟨d, hd, htoken⟩
    · exact absurd hdata (by decide)
    · have hnil : d = [] := by simpa [plainEnv] using htoken
      rw [hnil] at hd
      exact absurd hd (by decide)
  · exact absurd ht (by decide)

end Velcrux.Storage
