import Velcrux.Foundations.RaftSafety

/-!
# The moves keep the invariant

A move of a node keeps the record consistent and the node in agreement with it. The committed part of its
log stays where it is, and grows.
-/

namespace Raft

open TermLog List Option Function

variable {ι α : Type} {termOf : α → ℕ} {members : Finset ι}
variable {g g' : Record ι α} {i j : ι} {n n' : Node ι α} {t u k m : ℕ} {log log' : List α}
variable {base : List α} {e : α} {w : ι}

structure Sound (termOf : α → ℕ) (members : Finset ι) (i : ι) (n : Node ι α) (g : Record ι α)
    (n' : Node ι α) (g' : Record ι α) : Prop where
  grows : g.Le g'
  others : ∀ j, j ≠ i → ∀ m, NodeOk termOf members g j m → NodeOk termOf members g' j m
  record : RecordOk termOf members g'
  node : NodeOk termOf members g' i n'
  term : n.term ≤ n'.term
  commit : n.commit ≤ n'.commit
  log : n.log.take n.commit <+: n'.log

theorem Sound.stay (hrecord : RecordOk termOf members g) (hnode : NodeOk termOf members g i n')
    (hterm : n.term ≤ n'.term) (hcommit : n.commit ≤ n'.commit)
    (hlog : n.log.take n.commit <+: n'.log) : Sound termOf members i n g n' g :=
  ⟨.refl g, fun _ _ _ h => h, hrecord, hnode, hterm, hcommit, hlog⟩

theorem Sound.trans {n'' : Node ι α} {g'' : Record ι α} (h : Sound termOf members i n g n' g')
    (h' : Sound termOf members i n' g' n'' g'') : Sound termOf members i n g n'' g'' := by
  refine ⟨h.grows.trans h'.grows, fun j hj m hm => h'.others j hj m (h.others j hj m hm), h'.record,
    h'.node, h.term.trans h'.term, h.commit.trans h'.commit, ?_⟩
  have hpre : n.log.take n.commit <+: n'.log.take n'.commit := by
    refine prefix_of_prefix_length_le h.log (List.take_prefix _ _) ?_
    rw [length_take_of_le h.node.commit.1]
    exact (length_take_le _ _).trans h.commit
  exact hpre.trans h'.log

theorem Inv.start {node : ι → Node ι α}
    (h : ∀ i, node i = ⟨0, none, .follower, ∅, [], 0⟩) : Inv termOf members ⟨node, .empty⟩ := by
  have hrooted : Rooted termOf (Record.empty : Record ι α).root [] := by
    intro init e hpre
    exact absurd (prefix_nil.mp hpre) (append_ne_nil_of_right_ne_nil _ nofun)
  have hlog : ∀ t, LogOk termOf (Record.empty : Record ι α) [] t := fun t =>
    ⟨hrooted, List.Pairwise.nil, nofun⟩
  refine ⟨⟨hlog, fun _ _ => rfl, nofun, nofun, nofun, nofun, fun _ _ => le_rfl⟩, fun i => ?_⟩
  show NodeOk termOf members .empty i (node i)
  rw [h i]
  refine ⟨hlog 0, nofun, fun c => ⟨nofun, nofun⟩, fun _ _ => ⟨rfl, rfl, rfl⟩, nofun, ?_, le_rfl, .inl rfl⟩
  intro t k _
  refine .inl ?_
  show take k [] <+: []
  rw [take_nil]

variable [DecidableEq ι]

/-! ## Votes -/

theorem extends_vote (hcast : g.cast i t = none) {x : Option (ι × List α)} {c : ι → ℕ → Option (List α)}
    (hothers : ∀ j, j ≠ i → c j = g.campaign j) (hpast : ∀ u, u ≠ t → c i u = g.campaign i u)
    (hmono : ∀ y, g.campaign i t = some y → c i t = some y) :
    Extends g { g with campaign := c, cast := put g.cast i t x } i t := by
  refine ⟨fun _ => prefix_rfl, fun _ h => absurd rfl h, fun _ _ h => h, fun _ _ h => .inl h,
    fun j hj => ⟨put_other _ _ _ hj, hothers j hj, rfl⟩, fun u y hu => ?_, fun u y hu => ?_,
    fun u hu => ⟨put_later _ _ _ hu, hpast u hu, rfl⟩, le_rfl⟩
  · have hne : u ≠ t := by
      rintro rfl
      rw [hcast] at hu
      cases hu
    exact (put_later _ _ _ hne).trans hu
  · by_cases hne : u = t
    · subst hne
      exact hmono y hu
    · exact (hpast u hne).trans hu

theorem extends_acked {elections : ℕ → Option (ι × List α)} {roots : ℕ → List α}
    (hroot : ∀ u, g.root u <+: roots u)
    (hother : ∀ u, roots u ≠ g.root u → u = t ∧ ∃ base, elections t = some (i, base))
    (helected : ∀ u x, g.elected u = some x → elections u = some x)
    (hnew : ∀ u x, elections u = some x → g.elected u = some x ∨ u = t ∧ x.1 = i)
    (hk : g.acked i t ≤ k) :
    Extends g { g with elected := elections, root := roots, acked := put g.acked i t k } i t :=
  ⟨hroot, hother, helected, hnew, fun _ hj => ⟨rfl, rfl, put_other _ _ _ hj⟩, fun _ _ h => h,
    fun _ _ h => h, fun _ hu => ⟨rfl, rfl, put_later _ _ _ hu⟩, hk.trans_eq (put_same _ _ _ _).symm⟩

variable (hrecord : RecordOk termOf members g) (hnode : NodeOk termOf members g i n)

include hrecord hnode

theorem Sound.castVote {c : ι} {role : Role} {votes : Finset ι} {stands : ι → ℕ → Option (List α)}
    (hi : i ∈ members) (hterm : n.term ≤ t) (hcast : g.cast i t = none)
    (hothers : ∀ j, j ≠ i → stands j = g.campaign j)
    (hpast : ∀ u, u ≠ t → stands i u = g.campaign i u)
    (hmono : ∀ y, g.campaign i t = some y → stands i t = some y)
    (hup : ∃ log, stands c t = some log ∧ UpToDate termOf log n.log)
    (hstands : ∀ log, stands i t = some log → c = i ∧ log = n.log ∧ ∀ e ∈ log, termOf e < t)
    (hleader : role = .leader → n.role = .leader ∧ t = n.term)
    (hcandidate : role = .candidate → stands i t = some n.log ∧ c = i ∧ votes = {i} ∧
      ∀ base, g.elected t ≠ some (i, base)) :
    Sound termOf members i n g { n with term := t, vote := some c, role := role, votes := votes }
      { g with campaign := stands, cast := put g.cast i t (some (c, n.log)) } := by
  have hx := extends_vote (x := some (c, n.log)) hcast hothers hpast hmono
  have hself : put g.cast i t (some (c, n.log)) i t = some (c, n.log) := put_same _ _ _ _
  have hlog := hx.logOk (hnode.log.mono hterm)
  have hkept := fun u k (hk : k ≤ g.acked i u) =>
    hx.kept (hk.trans (hrecord.acked i u)) ((hnode.kept u k hk).mono hterm)
  refine ⟨hx.le, fun j hj _ hm => hx.nodeOk hrecord hj hm, ?_, ?_, hterm, le_rfl, take_prefix _ _⟩
  · refine hx.recordOk_of_roots hrecord (fun u x hu => (hnode.cast_le hu).trans hterm) rfl rfl
      (fun c' log' hc => ?_) (fun log' hl => ?_) (hrecord.acked _ _)
    · obtain ⟨rfl, rfl⟩ := Prod.mk.inj (some.inj (hself.symm.trans hc))
      exact ⟨hi, hlog, hup, fun u k _ hk => hkept u k hk⟩
    · obtain ⟨rfl, rfl, hbelow⟩ := hstands log' hl
      exact ⟨hlog, hbelow, hself⟩
  · refine ⟨hlog, fun hrole => ?_, fun c' => ⟨fun hc => ?_, fun ⟨log', hl⟩ => ?_⟩,
      fun u hu => hx.future hnode hterm hu, fun hrole => ?_, hkept, hnode.commit.1,
      hx.committed hterm prefix_rfl hnode.commit.2⟩
    · obtain ⟨hleads, rfl⟩ := hleader hrole
      exact hnode.leader hleads
    · cases hc
      exact ⟨n.log, hself⟩
    · exact congrArg some (Prod.mk.inj (some.inj (hself.symm.trans hl))).1
    · obtain ⟨hstand, rfl, rfl, hnot⟩ := hcandidate hrole
      refine ⟨hstand, fun v hv => ?_, hnot⟩
      cases Finset.mem_singleton.mp hv
      exact ⟨n.log, hself⟩

theorem Sound.campaign (hi : i ∈ members) :
    Sound termOf members i n g
      { n with term := n.term + 1, vote := some i, role := .candidate, votes := {i} }
      { g with
        campaign := put g.campaign i (n.term + 1) (some n.log)
        cast := put g.cast i (n.term + 1) (some (i, n.log)) } := by
  obtain ⟨hcast, hcampaign, -⟩ := hnode.future (n.term + 1) (Nat.lt_succ_self _)
  have hstand := put_same g.campaign i (n.term + 1) (some n.log)
  refine .castVote hrecord hnode hi (Nat.le_succ _) hcast (fun j hj => put_other _ _ _ hj)
    (fun u hu => put_later _ _ _ hu) (fun y hy => ?_) ⟨n.log, hstand, .inr ⟨rfl, le_rfl⟩⟩
    (fun log hl => ?_) nofun (fun _ => ⟨hstand, rfl, rfl, fun base hbase => ?_⟩)
  · rw [hcampaign] at hy
    cases hy
  · cases hstand.symm.trans hl
    exact ⟨rfl, rfl, fun e he => Nat.lt_succ_of_le (hnode.log.bound e he)⟩
  · -- an election needs a campaign, and there was none in this term
    have := (hrecord.elected _ _ _ hbase).campaign
    rw [hcampaign] at this
    cases this

theorem Sound.grant (hi : i ∈ members) {c : ι} (hvote : n.vote = none)
    (hcampaign : g.campaign c n.term = some log) (hup : UpToDate termOf log n.log) :
    Sound termOf members i n g { n with vote := some c }
      { g with cast := put g.cast i n.term (some (c, n.log)) } := by
  have hcast : g.cast i n.term = none := by
    cases hold : g.cast i n.term with
    | none => rfl
    | some x =>
      have := (hnode.vote x.1).mpr ⟨x.2, hold⟩
      rw [hvote] at this
      cases this
  -- a node that stands for election has voted already
  have hstands : ∀ log', g.campaign i n.term ≠ some log' := by
    intro log' hl
    cases hcast.symm.trans (hrecord.campaign _ _ _ hl).2.2
  exact .castVote hrecord hnode hi le_rfl hcast (fun _ _ => rfl) (fun _ _ => rfl) (fun _ h => h)
    ⟨log, hcampaign, hup⟩ (fun log' hl => absurd hl (hstands log')) (fun h => ⟨h, rfl⟩)
    (fun h => absurd (hnode.candidate h).1 (hstands _))

/-! ## Entries of a leader -/

theorem Sound.extendLog {elections : ℕ → Option (ι × List α)}
    (hself : elections n.term = some (i, base))
    (hothers : ∀ u, u ≠ n.term → elections u = g.elected u)
    (hmono : ∀ x, g.elected n.term = some x → x = (i, base))
    (helection : ElectedOk members g n.term i base) (hroot : g.root n.term <+: n.log)
    (hearlier : ∀ x ∈ base, termOf x < n.term) (hbelow : base <+: n.log)
    (hown : ∀ k, base.length ≤ k → k < n.log.length → termAt termOf n.log k = some n.term)
    (he : termOf e = n.term) :
    Sound termOf members i n g { n with role := .leader, log := n.log ++ [e] }
      { g with
        elected := elections
        root := Function.update g.root n.term (n.log ++ [e])
        acked := put g.acked i n.term (n.log.length + 1) } := by
  generalize hg' : ({ g with
    elected := elections
    root := Function.update g.root n.term (n.log ++ [e])
    acked := put g.acked i n.term (n.log.length + 1) } : Record ι α) = g'
  have hroot' : g'.root n.term = n.log ++ [e] := by
    rw [← hg']
    exact update_self _ _ _
  have hacked' : g'.acked i n.term = n.log.length + 1 := by
    rw [← hg']
    exact put_same _ _ _ _
  have helected : g'.elected n.term = some (i, base) := by rwa [← hg']
  have hcast : g'.cast = g.cast := by rw [← hg']
  have hcampaign : g'.campaign = g.campaign := by rw [← hg']
  have hx : Extends g g' i n.term := by
    rw [← hg']
    refine extends_acked (fun u => ?_) (fun u hu => ⟨?_, base, hself⟩) (fun u x hu => ?_)
      (fun u x hu => ?_) (((hrecord.acked i _).trans hroot.length_le).trans (Nat.le_succ _))
    · by_cases h : u = n.term
      · subst h
        rw [update_self]
        exact hroot.trans (prefix_append _ _)
      · rw [update_of_ne h]
    · by_contra h
      exact hu (update_of_ne h _ _)
    · by_cases h : u = n.term
      · subst h
        rw [hmono x hu]
        exact hself
      · rw [hothers u h]
        exact hu
    · by_cases h : u = n.term
      · subst h
        cases hself.symm.trans hu
        exact .inr ⟨rfl, rfl⟩
      · exact .inl (hothers u h ▸ hu)
  have hlog : LogOk termOf g' (n.log ++ [e]) n.term := by
    refine ⟨(hnode.log.rooted.mono hx.root).concat ?_, hnode.log.ascending.concat ?_, ?_⟩
    · rw [he, hroot']
    · intro x hxm
      rw [he]
      exact hnode.log.bound x hxm
    · intro x hxm
      rcases mem_append.mp hxm with hxm | hxm
      · exact hnode.log.bound x hxm
      · rw [mem_singleton.mp hxm, he]
  have hpast : ∀ u x, g.cast i u = some x → u ≤ n.term := fun u x hu => hnode.cast_le hu
  refine ⟨hx.le, fun j hj _ hm => hx.nodeOk hrecord hj hm, ?_, ?_, le_rfl, le_rfl, (List.take_prefix _ _).trans (prefix_append _ _)⟩
  · refine hx.recordOk hrecord hpast (hroot' ▸ hlog) (fun w base' hw => ?_) (fun hnone => ?_)
      (fun _ _ => hx.castsOk hrecord hcast) (fun _ => hx.campaignsOk hrecord hcampaign) ?_
    · cases helected.symm.trans hw
      refine ⟨⟨hearlier, ?_, ?_, fun k hk hlt => ?_⟩, hx.electedOk hrecord (hpast _) helection⟩
      · rw [hroot']
        exact hbelow.trans (prefix_append _ _)
      · rw [hroot', length_append]
        exact Nat.lt_succ_of_le hbelow.length_le
      · rw [hroot', length_append, length_singleton] at hlt
        rw [hroot', termAt]
        rcases Nat.lt_succ_iff_lt_or_eq.mp hlt with hlt | rfl
        · rw [getElem?_append_left hlt]
          exact hown k hk hlt
        · rw [getElem?_concat_length, map_some, he]
    · cases helected.symm.trans hnone
    · rw [hacked', hroot', length_append, length_singleton]
  · refine ⟨hlog, fun _ => ⟨⟨base, helected⟩, hroot'.symm, ?_⟩, fun c => ?_,
      fun u hu => hx.future hnode le_rfl hu, fun h => (by cases h), fun u k hk => ?_, ?_, ?_⟩
    · rw [length_append]
      exact hacked'
    · rw [hcast]
      exact hnode.vote c
    · by_cases h : u = n.term
      · subst h
        exact .inl (hroot' ▸ take_prefix _ _)
      · rw [(hx.past u h).2.2] at hk
        have hkept := hx.kept (hk.trans (hrecord.acked i u)) (hnode.kept u k hk)
        exact hkept.of_below (prefix_append _ _)
    · exact hnode.commit.1.trans (prefix_append _ _).length_le
    · exact hx.committed le_rfl (prefix_append _ _) hnode.commit.2

theorem Sound.append (hrole : n.role = .leader) (he : termOf e = n.term) :
    Sound termOf members i n g { n with log := n.log ++ [e] }
      { g with
        root := Function.update g.root n.term (n.log ++ [e])
        acked := put g.acked i n.term (n.log.length + 1) } := by
  obtain ⟨⟨base, helected⟩, hlog, -⟩ := hnode.leader hrole
  have hbase := hrecord.base _ _ _ helected
  have hsound := Sound.extendLog hrecord hnode helected (fun _ _ => rfl)
    (fun x hx => some.inj (hx.symm.trans helected)) (hrecord.elected _ _ _ helected)
    (hlog ▸ prefix_rfl) hbase.earlier (hlog ▸ hbase.below) (hlog ▸ hbase.own) he
  rwa [← hrole] at hsound

/-- A term has one leader: a second majority would have a voter in common with the first. -/
theorem NodeOk.unelected (hrole : n.role = .candidate) (hmajority : members.card < 2 * n.votes.card) :
    g.elected n.term = none ∧ Majority members n.votes := by
  obtain ⟨-, hvotes, hnot⟩ := hnode.candidate hrole
  have hq : Majority members n.votes := by
    refine ⟨fun v hv => ?_, hmajority⟩
    obtain ⟨log, hcast⟩ := hvotes v hv
    exact (hrecord.cast _ _ _ _ hcast).member
  refine ⟨?_, hq⟩
  cases helected : g.elected n.term with
  | none => rfl
  | some x =>
    obtain ⟨q, hq', hcasts⟩ := (hrecord.elected n.term x.1 x.2 helected).votes
    obtain ⟨v, hv, hv'⟩ := hq.inter hq'
    obtain ⟨log, hcast⟩ := hvotes v hv
    obtain ⟨log', hcast', -⟩ := hcasts v hv'
    rw [hcast] at hcast'
    have hwinner : i = x.1 := (Prod.mk.inj (some.inj hcast')).1
    exact absurd (hwinner ▸ helected) (hnot x.2)

theorem Sound.win (hrole : n.role = .candidate) (hmajority : members.card < 2 * n.votes.card)
    (he : termOf e = n.term) :
    Sound termOf members i n g { n with role := .leader, log := n.log ++ [e] }
      { g with
        elected := Function.update g.elected n.term (some (i, n.log))
        root := Function.update g.root n.term (n.log ++ [e])
        acked := put g.acked i n.term (n.log.length + 1) } := by
  obtain ⟨hnone, hq⟩ := hnode.unelected hrecord hrole hmajority
  obtain ⟨hcampaign, hvotes, -⟩ := hnode.candidate hrole
  refine Sound.extendLog hrecord hnode (update_self _ _ _)
    (fun u hu => update_of_ne hu _ _) (fun x hx => ?_) ⟨hcampaign, n.votes, hq, ?_⟩ ?_
    (hrecord.campaign _ _ _ hcampaign).2.1 prefix_rfl (fun k hk hlt => by omega) he
  · rw [hnone] at hx
    cases hx
  · intro v hv
    obtain ⟨log, hcast⟩ := hvotes v hv
    refine ⟨log, hcast, fun u k hu hk => ?_⟩
    rcases (hrecord.cast _ _ _ _ hcast).kept u k hu hk with hpre | ⟨t', w, base, h1, h2, h3, h4⟩
    · exact .inl hpre
    · -- nobody was elected in this term so far
      have hne : t' ≠ n.term := by
        rintro rfl
        rw [hnone] at h3
        cases h3
      exact .inr ⟨t', w, base, h1, by omega, h3, h4⟩
  · rw [hrecord.unelected _ hnone]
    exact nil_prefix

/-! ## Entries of others -/

/-- The log becomes a part of the leader's that has the leader's first entry, all that was taken over in
the term and all that is committed. -/
theorem Sound.takeOver (hrole : n.role = .follower)
    (helected : g.elected n.term = some (w, base)) (hroot : log <+: g.root n.term)
    (hbase : base.length ≤ log.length) (hacked : g.acked i n.term ≤ log.length)
    (hcommit : n.log.take n.commit <+: log) :
    Sound termOf members i n g { n with log := log }
      { g with acked := put g.acked i n.term log.length } := by
  have hx : Extends g { g with acked := put g.acked i n.term log.length } i n.term :=
    extends_acked (fun _ => prefix_rfl) (fun _ h => absurd rfl h) (fun _ _ h => h)
      (fun _ _ h => .inl h) hacked
  have hsame : put g.acked i n.term log.length i n.term = log.length := put_same _ _ _ _
  have hbelow : base <+: log :=
    prefix_of_prefix_length_le (hrecord.base _ _ _ helected).below hroot hbase
  refine ⟨hx.le, fun j hj _ hm => hx.nodeOk hrecord hj hm, ?_, ?_, le_rfl, le_rfl, hcommit⟩
  · exact hx.recordOk_of_roots hrecord (fun u x hu => hnode.cast_le hu) rfl rfl
      (fun _ _ => hx.castsOk hrecord rfl) (fun _ => hx.campaignsOk hrecord rfl)
      (hsame.le.trans hroot.length_le)
  · have hlen := hcommit.length_le
    rw [length_take, Nat.min_eq_left hnode.commit.1] at hlen
    refine ⟨hx.logOk ((hrecord.root n.term).of_below hroot),
      fun h => absurd (hrole.symm.trans h) nofun, hnode.vote, fun u hu => hx.future hnode le_rfl hu,
      fun h => absurd (hrole.symm.trans h) nofun, fun u k hk => ?_, hlen, ?_⟩
    · by_cases h : u = n.term
      · subst h
        refine .inl (prefix_of_prefix_length_le (List.take_prefix _ _) hroot ?_)
        exact (length_take_le _ _).trans (hk.trans_eq hsame)
      · rw [(hx.past u h).2.2] at hk
        rcases hnode.kept u k hk with hpre | hlost
        · rcases Nat.eq_zero_or_pos k with rfl | hpos
          · exact .inl (take_zero ▸ nil_prefix)
          · have hlt : u < n.term := lt_of_le_of_ne (hnode.acked_pos (hpos.trans_le hk)) h
            by_cases hin : (g.root u).take k <+: base
            · exact .inl (hin.trans hbelow)
            · exact .inr ⟨n.term, w, base, hlt, le_rfl, helected, hin⟩
        · exact .inr hlost
    · refine hx.committed le_rfl prefix_rfl ?_
      rcases hnode.commit.2 with hzero | ⟨u, m, hu, hchosen, hm, hpre⟩
      · exact .inl hzero
      · refine .inr ⟨u, m, hu, hchosen, hm, ?_⟩
        have hlast : (g.root u).take n.commit <+: n.log.take n.commit := by
          refine prefix_of_prefix_length_le hpre (List.take_prefix _ _) ?_
          rw [length_take, length_take, Nat.min_eq_left hnode.commit.1]
          exact Nat.min_le_left _ _
        exact hlast.trans hcommit

theorem Sound.accept (hrole : n.role = .follower)
    (helected : g.elected n.term = some (w, base)) (hbase : base.length < k)
    (hk : k ≤ (g.root n.term).length) (hnew : ¬ (g.root n.term).take k <+: n.log) :
    Sound termOf members i n g { n with log := (g.root n.term).take k }
      { g with acked := put g.acked i n.term k } := by
  have hlen : ((g.root n.term).take k).length = k := length_take_of_le hk
  -- what was taken over, or is committed, is not all of it
  have hacked : g.acked i n.term ≤ k := by
    by_contra hlt
    have hpre := (hnode.kept _ _ le_rfl).now
    exact hnew ((take_prefix_take_left (by omega)).trans hpre)
  have hcommit : n.log.take n.commit <+: (g.root n.term).take k := by
    have hpre := hnode.commit_prefix hrecord helected
    rcases prefix_or_prefix_of_prefix hpre (List.take_prefix k _) with h | h
    · exact h
    · exact absurd (h.trans (List.take_prefix _ _)) hnew
  have hsound := Sound.takeOver hrecord hnode hrole helected (List.take_prefix k _)
    (by omega) (by omega) hcommit
  rwa [hlen] at hsound

theorem Sound.confirm (hrole : n.role = .follower)
    (helected : g.elected n.term = some (w, base)) (hbase : base.length < k)
    (hk : k ≤ (g.root n.term).length) (hold : (g.root n.term).take k <+: n.log) :
    Sound termOf members i n g n { g with acked := put g.acked i n.term n.log.length } := by
  have hroot := hnode.prefix_root hrecord helected hbase hk hold
  have hlen := hold.length_le
  rw [length_take_of_le hk] at hlen
  have hacked : g.acked i n.term ≤ n.log.length := by
    have hpre := (hnode.kept _ _ le_rfl).now.length_le
    rwa [length_take_of_le (hrecord.acked _ _)] at hpre
  exact Sound.takeOver hrecord hnode hrole helected hroot (by omega) hacked (List.take_prefix _ _)

theorem Sound.truncate (hrole : n.role = .follower) (helected : g.elected n.term = some (w, base))
    (hdiffer : termAt termOf n.log k ≠ termAt termOf (g.root n.term) k) :
    Sound termOf members i n g { n with log := n.log.take k } g := by
  have hcut := hnode.truncate hrecord hrole helected hdiffer
  refine .stay hrecord hcut le_rfl le_rfl ?_
  have hlen : n.commit ≤ (n.log.take k).length := hcut.commit.1
  refine prefix_of_prefix_length_le (List.take_prefix _ _) (List.take_prefix _ _) ?_
  exact (length_take_le _ _).trans hlen

theorem Move.sound (hi : i ∈ members) (h : Move termOf members i n g n' g') :
    Sound termOf members i n g n' g' := by
  cases h with
  | advance ht => exact .stay hrecord (hnode.advance ht) ht.le le_rfl (List.take_prefix _ _)
  | retire => exact .stay hrecord hnode.retire le_rfl le_rfl (List.take_prefix _ _)
  | campaign => exact .campaign hrecord hnode hi
  | grant hvote hcampaign hlog => exact .grant hrecord hnode hi hvote hcampaign hlog
  | count hrole hcast =>
    exact .stay hrecord (hnode.count hrole hcast) le_rfl le_rfl (List.take_prefix _ _)
  | win hrole hmajority he => exact .win hrecord hnode hrole hmajority he
  | append hrole he => exact .append hrecord hnode hrole he
  | accept hrole helected hbase hk hnew => exact .accept hrecord hnode hrole helected hbase hk hnew
  | confirm hrole helected hbase hk hold => exact .confirm hrecord hnode hrole helected hbase hk hold
  | truncate hrole helected hk hdiffer => exact .truncate hrecord hnode hrole helected hdiffer
  | commitOwn hrole hchosen hk =>
    exact .stay hrecord (hnode.commitOwn hrole hchosen) le_rfl hk (List.take_prefix _ _)
  | commitFrom helected hlog ht hchosen hkm hk hcommit =>
    exact .stay hrecord (hnode.commitFrom hrecord helected hlog ht hchosen hkm hk) le_rfl hcommit
      (List.take_prefix _ _)

theorem Moves.sound (hi : i ∈ members) (h : Moves termOf members i n g n' g') :
    Sound termOf members i n g n' g' := by
  induction h with
  | refl => exact .stay hrecord hnode le_rfl le_rfl (List.take_prefix _ _)
  | tail _ hmove ih => exact ih.trans (Move.sound ih.record ih.node hi hmove)

omit hrecord hnode

end Raft
