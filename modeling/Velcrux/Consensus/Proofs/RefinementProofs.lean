import Velcrux.Consensus.Cluster
import Velcrux.Foundations.RaftMoves

/-!
# The coordinator follows the protocol

What a handler does to its node is a sequence of moves of the protocol. A message that was sent is
something that the record says, so it does not matter when it is delivered.
-/

namespace Velcrux.Consensus

open List Function RaftCoordinator RaftLogEntry RaftRole

open Raft (Record NodeOk RecordOk Chosen Move Moves Majority)
open TermLog (termAt lastTerm Rooted UpToDate overlay)

variable {log : List RaftLogEntry} {n : ℕ} {req : AppendEntriesRequest}

/-! ## The node of the protocol -/

def RaftRole.toRole : RaftRole → Raft.Role
  | .follower => .follower
  | .candidate => .candidate
  | .leader => .leader

def RaftCoordinator.view (s : RaftCoordinator) : Raft.Node String RaftLogEntry :=
  ⟨s.currentTerm, s.votedFor, s.role.toRole, s.votesReceived, s.log, s.commitIndex⟩

theorem RaftRole.toRole_eq_leader {r : RaftRole} : r.toRole = .leader ↔ r = .leader := by
  cases r <;> simp [toRole]

theorem RaftRole.toRole_eq_candidate {r : RaftRole} : r.toRole = .candidate ↔ r = .candidate := by
  cases r <;> simp [toRole]

def Indexed (log : List RaftLogEntry) : Prop := ∀ k e, log[k]? = some e → e.index = k + 1

structure Tracks (s : RaftCoordinator) : Prop where
  le : s.lastApplied ≤ s.commitIndex
  trace : s.applied.map (fun a => (a.index, a.command)) =
    (s.log.take s.lastApplied).map fun e => (e.index, e.command)
  machine : s.stateMachine = s.applied.foldl (fun sm a => sm.apply a.command a.nowSecs) .empty

structure Own (members : Finset String) (g : Record String RaftLogEntry) (i : String)
    (s : RaftCoordinator) : Prop where
  id : s.nodeId = i
  peers : s.peers = members.erase i
  progress : s.role = .leader → ∀ p, 1 ≤ (s.progress p).nextIndex ∧
    (s.progress p).nextIndex ≤ s.log.length + 1 ∧ (s.progress p).matchIndex ≤ g.acked p s.currentTerm
  tracks : Tracks s

structure Good (members : Finset String) (g : Record String RaftLogEntry) (i : String)
    (s : RaftCoordinator) : Prop where
  member : i ∈ members
  record : RecordOk term members g
  node : NodeOk term members g i s.view
  roots : ∀ t, Indexed (g.root t)
  own : Own members g i s

def Justified (members : Finset String) (g : Record String RaftLogEntry) : RaftMessage → Prop
  | .requestVote req => ∃ log, g.campaign req.candidateId req.term = some log ∧
      req.lastLogIndex = log.length ∧ req.lastLogTerm = lastTerm term log
  | .voteReply dst resp => resp.voteGranted = true →
      ∃ log, g.cast resp.voterId resp.term = some (dst, log)
  | .appendEntries _ req => ∃ w base n, g.elected req.term = some (w, base) ∧ base.length < n ∧
      n ≤ (g.root req.term).length ∧ req.prevLogIndex ≤ n ∧
      (0 < req.prevLogIndex →
        termAt term (g.root req.term) (req.prevLogIndex - 1) = some req.prevLogTerm) ∧
      req.entries = ((g.root req.term).take n).drop req.prevLogIndex ∧
      (req.leaderCommit = 0 ∨
        ∃ t m, t ≤ req.term ∧ Chosen term members g t m ∧ req.leaderCommit ≤ m)
  | .appendReply _ resp => resp.success = true → resp.matchIndex ≤ g.acked resp.responderId resp.term

variable {members : Finset String} {g g' : Record String RaftLogEntry} {i : String}
  {s s' s'' : RaftCoordinator}

theorem Justified.mono {m : RaftMessage} (h : Justified members g m) (hle : g.Le g') :
    Justified members g' m := by
  cases m with
  | requestVote req =>
    obtain ⟨log, hcampaign, hrest⟩ := h
    exact ⟨log, hle.campaign _ _ _ hcampaign, hrest⟩
  | voteReply dst resp =>
    intro hgranted
    obtain ⟨log, hcast⟩ := h hgranted
    exact ⟨log, hle.cast _ _ _ hcast⟩
  | appendEntries dst req =>
    obtain ⟨w, base, n, helected, hbase, hn, hprev, hterm, hentries, hcommit⟩ := h
    refine ⟨w, base, n, hle.elected _ _ helected, hbase, hn.trans (hle.root _).length_le, hprev, ?_, ?_, ?_⟩
    · intro hpos
      rw [hle.termAt_root (by omega)]
      exact hterm hpos
    · rw [hle.take_root hn]
      exact hentries
    · rcases hcommit with hzero | ⟨t, m, ht, hchosen, hm⟩
      · exact .inl hzero
      · exact .inr ⟨t, m, ht, hle.chosen hchosen, hm⟩
  | appendReply dst resp =>
    intro hsuccess
    exact (h hsuccess).trans (hle.acked _ _)

theorem Own.mono (h : Own members g i s) (hle : g.Le g') : Own members g' i s := by
  refine ⟨h.id, h.peers, fun hrole p => ?_, h.tracks⟩
  obtain ⟨h1, h2, h3⟩ := h.progress hrole p
  exact ⟨h1, h2, h3.trans (hle.acked _ _)⟩

theorem Indexed.of_below {log' : List RaftLogEntry} (h : Indexed log) (hpre : log' <+: log) :
    Indexed log' := by
  intro k e hk
  exact h k e (TermLog.getElem?_of_below hpre hk)

theorem Indexed.concat {e : RaftLogEntry} (h : Indexed log)
    (he : e.index = log.length + 1) : Indexed (log ++ [e]) := by
  intro k x hk
  rcases Nat.lt_trichotomy k log.length with hlt | rfl | hgt
  · rw [List.getElem?_append_left hlt] at hk
    exact h k x hk
  · rw [List.getElem?_concat_length] at hk
    rw [← Option.some.inj hk]
    exact he
  · rw [List.getElem?_eq_none (by rw [length_append, length_singleton]; omega)] at hk
    cases hk

theorem Indexed.of_rooted (hroots : ∀ t, Indexed (g.root t))
    (h : Rooted term g.root log) : Indexed log := by
  intro k e hk
  have hterm : termAt term log k = some e.term := by
    rw [termAt, hk]
    rfl
  refine (hroots e.term).of_below (h.take_prefix hterm) k e ?_
  rw [List.getElem?_take_of_lt (Nat.lt_succ_self k)]
  exact hk

theorem Indexed.update (hroots : ∀ t, Indexed (g.root t)) {e : RaftLogEntry}
    (h : Indexed log) (he : e.index = log.length + 1) (term t : ℕ) :
    Indexed (Function.update g.root term (log ++ [e]) t) := by
  by_cases ht : t = term
  · subst ht
    rw [update_self]
    exact h.concat he
  · rw [update_of_ne ht]
    exact hroots t

theorem Good.indexed (h : Good members g i s) : Indexed s.log := .of_rooted h.roots h.node.log.rooted

/-! ## Applying -/

theorem applyEntries_eq (nowSecs : ℕ) (entries : List RaftLogEntry) (s : RaftCoordinator)
    (hindex : ∀ k e, entries[k]? = some e → e.index = s.lastApplied + k + 1) :
    ∃ new : List Application,
      new.map (fun a => (a.index, a.command)) = entries.map (fun e => (e.index, e.command)) ∧
      applyEntries nowSecs entries s =
        { s with
          stateMachine := new.foldl (fun sm a => sm.apply a.command a.nowSecs) s.stateMachine
          lastApplied := s.lastApplied + entries.length
          applied := s.applied ++ new } := by
  induction entries generalizing s with
  | nil => exact ⟨[], rfl, by rw [append_nil]; rfl⟩
  | cons entry rest ih =>
    rw [applyEntries]
    obtain ⟨new, htrace, heq⟩ := ih
      { s with
        stateMachine := s.stateMachine.apply entry.command nowSecs
        lastApplied := s.lastApplied + 1
        applied := s.applied ++ [⟨s.lastApplied + 1, entry.command, nowSecs⟩] } (by
      intro k e hk
      have := hindex (k + 1) e hk
      show e.index = s.lastApplied + 1 + k + 1
      omega)
    refine ⟨⟨s.lastApplied + 1, entry.command, nowSecs⟩ :: new, ?_, ?_⟩
    · rw [map_cons, map_cons, htrace, hindex 0 entry rfl]
    · rw [heq]
      simp only [length_cons, append_assoc]
      congr 1
      omega

theorem Tracks.commitTo (h : Tracks s) (hindexed : Indexed s.log) {target : ℕ}
    (hle : s.commitIndex ≤ target) (hlen : target ≤ s.log.length) (nowSecs : ℕ) :
    ∃ sm applied, s.commitTo target nowSecs =
        { s with commitIndex := target, stateMachine := sm, lastApplied := target, applied := applied } ∧
      Tracks (s.commitTo target nowSecs) ∧ s.applied <+: applied := by
  have hla := h.le
  obtain ⟨new, htrace, heq⟩ := applyEntries_eq nowSecs ((s.log.take target).drop s.lastApplied)
    { s with commitIndex := target } (by
    intro k e hk
    rw [List.getElem?_drop] at hk
    have hlt := (List.getElem?_eq_some_iff.mp hk).1
    rw [length_take] at hlt
    rw [List.getElem?_take_of_lt (by omega)] at hk
    have := hindexed _ e hk
    omega)
  have hcount : s.lastApplied + ((s.log.take target).drop s.lastApplied).length = target := by
    rw [length_drop, length_take]
    omega
  have hcommit : s.commitTo target nowSecs =
      { s with
        commitIndex := target
        stateMachine := new.foldl (fun sm a => sm.apply a.command a.nowSecs) s.stateMachine
        lastApplied := target
        applied := s.applied ++ new } := by
    refine heq.trans ?_
    rw [hcount]
  refine ⟨_, _, hcommit, ?_, prefix_append _ _⟩
  rw [hcommit]
  refine ⟨le_rfl, ?_, ?_⟩
  · rw [map_append, h.trace, htrace, ← map_append]
    congr 1
    have hsplit := take_append_drop s.lastApplied (s.log.take target)
    rwa [take_take, Nat.min_eq_left (by omega)] at hsplit
  · rw [foldl_append, ← h.machine]

theorem Tracks.setLog (h : Tracks s) (hlen : s.commitIndex ≤ s.log.length)
    (hpre : s.log.take s.commitIndex <+: log) : Tracks { s with log := log } := by
  refine ⟨h.le, ?_, h.machine⟩
  show s.applied.map _ = (log.take s.lastApplied).map _
  rw [h.trace]
  obtain ⟨rest, rfl⟩ := hpre
  have hla := h.le
  rw [take_append_of_le_length (by rw [length_take]; omega), take_take,
    Nat.min_eq_left hla]

/-! ## Handlers as moves -/

structure Reaches (members : Finset String) (i : String) (s : RaftCoordinator)
    (g : Record String RaftLogEntry) (s' : RaftCoordinator) (g' : Record String RaftLogEntry) : Prop where
  moves : Moves term members i s.view g s'.view g'
  good : Good members g' i s'
  applied : s.applied <+: s'.applied

theorem Reaches.trans {g'' : Record String RaftLogEntry} (h : Reaches members i s g s' g')
    (h' : Reaches members i s' g' s'' g'') : Reaches members i s g s'' g'' :=
  ⟨h.moves.trans h'.moves, h'.good, h.applied.trans h'.applied⟩

namespace Good

variable (hgood : Good members g i s)
include hgood

theorem reaches (hmoves : Moves term members i s.view g s'.view g')
    (hroots : ∀ t, Indexed (g'.root t)) (hown : Own members g' i s')
    (happlied : s.applied <+: s'.applied) : Reaches members i s g s' g' := by
  have hsound := hmoves.sound hgood.record hgood.node hgood.member
  exact ⟨hmoves, ⟨hgood.member, hsound.record, hsound.node, hroots, hown⟩, happlied⟩

theorem unseen (hview : s'.view = s.view) (hown : Own members g i s')
    (happlied : s.applied <+: s'.applied) : Reaches members i s g s' g := by
  refine hgood.reaches ?_ hgood.roots hown happlied
  rw [hview]
  exact .refl

theorem stays : Reaches members i s g s g := hgood.unseen rfl hgood.own prefix_rfl

theorem advanceTerm {term : ℕ} (hterm : s.currentTerm < term) :
    Reaches members i s g (s.advanceTerm term) g := by
  refine hgood.reaches (Move.moves (.advance hterm)) hgood.roots ?_ prefix_rfl
  exact ⟨hgood.own.id, hgood.own.peers, nofun, { hgood.own.tracks with }⟩

theorem setLeader (leaderId : Option String) : Reaches members i s g { s with leaderId := leaderId } g :=
  hgood.unseen rfl { hgood.own with tracks := { hgood.own.tracks with } } prefix_rfl

theorem vote {candidateId : String} (hvote : s.votedFor = none)
    (hcampaign : g.campaign candidateId s.currentTerm = some log) (hlog : UpToDate term log s.log) :
    ∃ g', Reaches members i s g { s with votedFor := some candidateId } g' ∧
      ∃ log, g'.cast i s.currentTerm = some (candidateId, log) := by
  have hmove : Move term members i s.view g _ _ := .grant hvote hcampaign hlog
  refine ⟨_, hgood.reaches hmove.moves hgood.roots ?_ prefix_rfl, s.log, ?_⟩
  · exact { hgood.own with tracks := { hgood.own.tracks with } }
  · exact Raft.put_same _ _ _ _

theorem handleRequestVote {req : RequestVoteRequest} (hreq : Justified members g (.requestVote req)) :
    ∃ g', Reaches members i s g (s.handleRequestVote req).1 g' ∧
      Justified members g' (.voteReply req.candidateId (s.handleRequestVote req).2) := by
  rw [RaftCoordinator.handleRequestVote]
  generalize hs1 : (if s.currentTerm < req.term then { s.advanceTerm req.term with leaderId := none }
    else s) = s1
  have hreach : Reaches members i s g s1 g ∧ req.term ≤ s1.currentTerm := by
    rw [← hs1]
    split
    · rename_i hlt
      have h1 := hgood.advanceTerm hlt
      exact ⟨h1.trans (h1.good.setLeader none), le_rfl⟩
    · exact ⟨hgood.stays, by omega⟩
  obtain ⟨h1, hge⟩ := hreach
  dsimp only
  split
  · exact ⟨g, h1, nofun⟩
  · have hterm : req.term = s1.currentTerm := by omega
    split
    · rename_i hok
      obtain ⟨log, hcampaign, hlength, hlast⟩ := hreq
      obtain ⟨hfree | hagain, hlog⟩ := hok
      · -- the first vote in this term
        rw [hterm] at hcampaign
        have hup : UpToDate term log s1.log := by
          rw [hlength, hlast] at hlog
          exact hlog
        obtain ⟨g', hreach, log', hcast⟩ := h1.good.vote hfree hcampaign hup
        refine ⟨g', h1.trans hreach, fun _ => ⟨log', ?_⟩⟩
        rw [h1.good.own.id]
        exact hcast
      · -- the vote was cast before
        obtain ⟨log', hcast⟩ := (h1.good.node.vote req.candidateId).mp hagain
        refine ⟨g, ?_, fun _ => ⟨log', ?_⟩⟩
        · rw [← hagain]
          exact h1
        · rw [h1.good.own.id]
          exact hcast
    · exact ⟨g, h1, nofun⟩

theorem startElection :
    ∃ g', Reaches members i s g s.startElection.1 g' ∧
      Justified members g' (.requestVote s.startElection.2) := by
  obtain rfl := hgood.own.id
  have hmove : Move term members s.nodeId s.view g s.startElection.1.view _ := .campaign
  refine ⟨_, hgood.reaches hmove.moves hgood.roots ?_ prefix_rfl, s.log, ?_, rfl, rfl⟩
  · exact ⟨rfl, hgood.own.peers, nofun, { hgood.own.tracks with }⟩
  · exact Raft.put_same _ _ _ _

/-! ## Entries of the leader -/

theorem commitTo {target : ℕ} (hle : s.commitIndex ≤ target) (hlen : target ≤ s.log.length)
    (hmove : Move term members i s.view g { s.view with commit := target } g)
    (nowSecs : ℕ) : Reaches members i s g (s.commitTo target nowSecs) g := by
  obtain ⟨sm, applied, heq, htracks, hpre⟩ :=
    hgood.own.tracks.commitTo hgood.indexed hle hlen nowSecs
  rw [heq] at htracks ⊢
  have hown : Own members g i { s with
      commitIndex := target, stateMachine := sm, lastApplied := target, applied := applied } :=
    { hgood.own with tracks := htracks }
  exact hgood.reaches hmove.moves hgood.roots hown hpre

theorem root_of_leader (hrole : s.role = .leader) :
    (∃ base, g.elected s.currentTerm = some (i, base)) ∧ s.log = g.root s.currentTerm ∧
      g.acked i s.currentTerm = s.log.length :=
  hgood.node.leader (toRole_eq_leader.mpr hrole)

theorem commitOwn (hrole : s.role = .leader) {q : Finset String}
    (hn : 0 < n) (hterm : termAt term s.log (n - 1) = some s.currentTerm)
    (hq : Majority members q) (hacked : ∀ v ∈ q, n ≤ g.acked v s.currentTerm)
    (hle : s.commitIndex ≤ n) (nowSecs : ℕ) : Reaches members i s g (s.commitTo n nowSecs) g := by
  obtain ⟨-, hlog, -⟩ := hgood.root_of_leader hrole
  obtain ⟨-, -, -, hlt⟩ := TermLog.take_succ_of_termAt hterm
  refine hgood.commitTo hle (by omega) ?_ nowSecs
  refine .commitOwn (toRole_eq_leader.mpr hrole) ⟨hn, ?_, q, hq, hacked⟩ hle
  show termAt term (g.root s.currentTerm) (n - 1) = some s.currentTerm
  rw [← hlog]
  exact hterm

theorem commitAlone (hrole : s.role = .leader) {entry : RaftLogEntry}
    (hlog : s.log = log ++ [entry]) (hterm : entry.term = s.currentTerm) (nowSecs : ℕ) :
    Reaches members i s g (if s.peers = ∅ then s.commitTo (log.length + 1) nowSecs else s) g := by
  split
  · rename_i halone
    obtain ⟨-, -, hacked⟩ := hgood.root_of_leader hrole
    have hlen : s.log.length = log.length + 1 := by rw [hlog, length_append, length_singleton]
    have hmembers : members = {i} := by
      rw [hgood.own.peers] at halone
      rw [← Finset.insert_erase hgood.member, halone, insert_empty_eq]
    have hpos : 0 < log.length + 1 := Nat.succ_pos _
    refine hgood.commitOwn hrole (q := {i}) hpos ?_ ⟨?_, ?_⟩ ?_ ?_ nowSecs
    · rw [hlog, termAt, Nat.add_sub_cancel, List.getElem?_concat_length, Option.map_some, hterm]
    · rw [hmembers]
    · rw [hmembers]
      exact Nat.one_lt_two
    · intro v hv
      rw [Finset.mem_singleton.mp hv, hacked, hlen]
    · have hcommit : s.commitIndex ≤ s.log.length := hgood.node.commit.1
      omega
  · exact hgood.stays

theorem appendEntry (hrole : s.role = .leader) (command : RaftCommand) (stampSecs : ℕ) :
    ∃ g', Reaches members i s g
      { s with log := s.log ++ [⟨s.log.length + 1, s.currentTerm, command, stampSecs⟩] } g' := by
  generalize hentry : (⟨s.log.length + 1, s.currentTerm, command, stampSecs⟩ : RaftLogEntry) = entry
  have hterm : entry.term = s.view.term := by rw [← hentry]; rfl
  have hindex : entry.index = s.log.length + 1 := by rw [← hentry]
  have hmove : Move term members i s.view g _ _ :=
    .append (toRole_eq_leader.mpr hrole) hterm
  have hsound := hmove.sound hgood.record hgood.node hgood.member
  refine ⟨_, hgood.reaches hmove.moves (Indexed.update hgood.roots hgood.indexed hindex _) ?_
    prefix_rfl⟩
  have hcommit := hgood.node.commit.1
  have htracks := hgood.own.tracks.setLog hcommit hsound.log
  refine ⟨hgood.own.id, hgood.own.peers, fun _ p => ?_, htracks⟩
  obtain ⟨h1, h2, h3⟩ := hgood.own.progress hrole p
  refine ⟨h1, h2.trans ?_, h3.trans (hsound.grows.acked _ _)⟩
  rw [length_append]
  omega

theorem propose (command : RaftCommand) (stampSecs nowSecs : ℕ) :
    ∃ g', Reaches members i s g (s.propose command stampSecs nowSecs).1 g' := by
  rw [RaftCoordinator.propose]
  split
  · exact ⟨g, hgood.stays⟩
  · rename_i hrole
    have hrole : s.role = .leader := Decidable.not_not.mp hrole
    obtain ⟨g', hreach⟩ := hgood.appendEntry hrole command stampSecs
    exact ⟨g', hreach.trans (hreach.good.commitAlone hrole rfl rfl nowSecs)⟩

theorem becomeLeader (hrole : s.role = .candidate) (hquorum : s.quorum ≤ s.votesReceived.card)
    (stampSecs : ℕ) :
    ∃ g', Reaches members i s g
      { s with
        role := .leader
        leaderId := some s.nodeId
        progress := fun _ => ⟨s.log.length + 1, 0⟩
        log := s.log ++ [⟨s.log.length + 1, s.currentTerm, .noop, stampSecs⟩] } g' := by
  generalize hentry : (⟨s.log.length + 1, s.currentTerm, .noop, stampSecs⟩ : RaftLogEntry) = entry
  have hterm : entry.term = s.view.term := by rw [← hentry]; rfl
  have hindex : entry.index = s.log.length + 1 := by rw [← hentry]
  have hmajority : members.card < 2 * s.view.votes.card := by
    have hcard := Finset.card_erase_add_one hgood.member
    rw [quorum, hgood.own.peers] at hquorum
    show members.card < 2 * s.votesReceived.card
    omega
  have hmove : Move term members i s.view g _ _ :=
    .win (toRole_eq_candidate.mpr hrole) hmajority hterm
  have hsound := hmove.sound hgood.record hgood.node hgood.member
  refine ⟨_, hgood.reaches hmove.moves (Indexed.update hgood.roots hgood.indexed hindex _) ?_
    prefix_rfl⟩
  have htracks := hgood.own.tracks.setLog hgood.node.commit.1 hsound.log
  refine ⟨hgood.own.id, hgood.own.peers, fun _ p => ⟨Nat.succ_pos _, ?_, Nat.zero_le _⟩, { htracks with }⟩
  show s.log.length + 1 ≤ (s.log ++ [entry]).length + 1
  rw [length_append]
  omega

theorem recordVote {resp : RequestVoteResponse} (hresp : Justified members g (.voteReply i resp))
    (stampSecs nowSecs : ℕ) :
    ∃ g', Reaches members i s g
      (s.recordVote resp.voterId resp.voteGranted resp.term stampSecs nowSecs).1 g' := by
  rw [RaftCoordinator.recordVote]
  split
  · rename_i hlt
    exact ⟨g, hgood.advanceTerm hlt⟩
  · split
    · exact ⟨g, hgood.stays⟩
    · rename_i hignored
      push Not at hignored
      obtain ⟨hrole, hterm, hgranted⟩ := hignored
      obtain ⟨log, hcast⟩ := hresp (Bool.eq_true_of_not_eq_false hgranted)
      -- the vote is counted
      have hcount : Reaches members i s g
          { s with votesReceived := insert resp.voterId s.votesReceived } g := by
        have hmove : Move term members i s.view g _ _ :=
          .count (toRole_eq_candidate.mpr hrole) (hterm ▸ hcast)
        refine hgood.reaches hmove.moves hgood.roots ?_ prefix_rfl
        exact { hgood.own with tracks := { hgood.own.tracks with } }
      dsimp only
      split
      · rename_i hquorum
        obtain ⟨g', hreach⟩ := hcount.good.becomeLeader hrole hquorum stampSecs
        refine ⟨g', (hcount.trans hreach).trans ?_⟩
        exact hreach.good.commitAlone rfl rfl rfl nowSecs
      · exact ⟨g, hcount⟩

theorem createAppendEntries {peer : String} (hreq : s.createAppendEntriesForPeer peer = some req) :
    Justified members g (.appendEntries peer req) := by
  rw [createAppendEntriesForPeer] at hreq
  split at hreq
  · cases hreq
  rename_i hleads
  push Not at hleads
  obtain ⟨⟨base, helected⟩, hlog, -⟩ := hgood.root_of_leader hleads.1
  obtain ⟨hnext, hnext', -⟩ := hgood.own.progress hleads.1 peer
  have hshorter := (hgood.record.base _ _ _ helected).shorter
  cases hreq
  refine ⟨i, base, s.log.length, helected, hlog ▸ hshorter, hlog ▸ le_rfl, ?_, ?_, ?_, ?_⟩
  · show (s.progress peer).nextIndex - 1 ≤ s.log.length
    omega
  · intro hpos
    dsimp only at hpos ⊢
    have hlt : (s.progress peer).nextIndex - 1 - 1 < s.log.length := by omega
    rw [if_pos hpos, ← hlog, termAt, List.getElem?_eq_getElem hlt]
    rfl
  · dsimp only
    rw [← hlog, take_length]
    split
    · rfl
    · exact (drop_eq_nil_of_le (by omega)).symm
  · rcases hgood.node.commit.2 with hzero | ⟨t, m, ht, hchosen, hm, -⟩
    · exact .inl hzero
    · exact .inr ⟨t, m, ht, hchosen, hm⟩

/-! ## Replies to the leader -/

omit hgood in
theorem commitCandidate_spec {bound : ℕ} (h : s.commitCandidate bound = some n) :
    s.commitIndex < n ∧ n ≤ bound ∧ s.canCommit n = true := by
  induction bound with
  | zero => cases h
  | succ m ih =>
    rw [commitCandidate] at h
    split at h
    · cases h
    · rename_i hlt
      split at h
      · rename_i hcan
        cases h
        exact ⟨by omega, le_rfl, hcan⟩
      · obtain ⟨h1, h2, h3⟩ := ih h
        exact ⟨h1, h2.trans (Nat.le_succ m), h3⟩

theorem commitCounted (hrole : s.role = .leader) (hn : s.commitIndex < n)
    (hlen : n ≤ s.log.length) (hcan : s.canCommit n = true) (nowSecs : ℕ) :
    Reaches members i s g (s.commitTo n nowSecs) g := by
  obtain ⟨hterm, hquorum⟩ := of_decide_eq_true hcan
  obtain ⟨-, -, hacked⟩ := hgood.root_of_leader hrole
  have hself : i ∉ s.peers.filter fun p => n ≤ (s.progress p).matchIndex := by
    rw [hgood.own.peers]
    intro hmem
    exact Finset.notMem_erase i members (Finset.mem_filter.mp hmem).1
  refine hgood.commitOwn hrole (q := insert i (s.peers.filter fun p => n ≤ (s.progress p).matchIndex))
    (by omega) hterm ⟨?_, ?_⟩ ?_ hn.le nowSecs
  · intro v hv
    rcases Finset.mem_insert.mp hv with rfl | hv
    · exact hgood.member
    · have hpeer := (Finset.mem_filter.mp hv).1
      rw [hgood.own.peers] at hpeer
      exact Finset.mem_of_mem_erase hpeer
  · rw [Finset.card_insert_of_notMem hself]
    have hcard := Finset.card_erase_add_one hgood.member
    rw [← hgood.own.peers] at hcard
    rw [quorum] at hquorum
    omega
  · intro v hv
    rcases Finset.mem_insert.mp hv with rfl | hv
    · rw [hacked]
      exact hlen
    · exact (Finset.mem_filter.mp hv).2.trans (hgood.own.progress hrole v).2.2

theorem setProgress (hrole : s.role = .leader) {resp : AppendEntriesResponse}
    (hresp : Justified members g (.appendReply i resp)) (hterm : resp.term = s.currentTerm) :
    Reaches members i s g
      { s with
        progress := Function.update s.progress resp.responderId
          (replyProgress (s.progress resp.responderId) resp) } g := by
  refine hgood.unseen rfl ⟨hgood.own.id, hgood.own.peers, fun _ p => ?_, { hgood.own.tracks with }⟩ prefix_rfl
  obtain ⟨-, hlog, -⟩ := hgood.root_of_leader hrole
  obtain ⟨hnext, hnext', hmatch⟩ := hgood.own.progress hrole p
  dsimp only
  by_cases hp : p = resp.responderId
  · subst hp
    rw [update_self, replyProgress]
    split
    · rename_i hsuccess
      have hacked : resp.matchIndex ≤ g.acked resp.responderId s.currentTerm := hterm ▸ hresp hsuccess
      have hlen := hacked.trans (hgood.record.acked _ _)
      rw [← hlog] at hlen
      exact ⟨Nat.succ_pos _, Nat.succ_le_succ hlen, hacked⟩
    · refine ⟨Nat.le_max_right _ _, ?_, hmatch⟩
      show max ((s.progress resp.responderId).nextIndex - 1) 1 ≤ s.log.length + 1
      omega
  · rw [update_of_ne hp]
    exact ⟨hnext, hnext', hmatch⟩

theorem handleAppendResponse {resp : AppendEntriesResponse}
    (hresp : Justified members g (.appendReply i resp)) (nowSecs : ℕ) :
    Reaches members i s g (s.handleAppendResponse resp.responderId resp nowSecs) g := by
  rw [RaftCoordinator.handleAppendResponse]
  split
  · rename_i hlt
    exact hgood.advanceTerm hlt
  · split
    · exact hgood.stays
    · rename_i hleads
      push Not at hleads
      generalize hs1 : (if resp.responderId ∈ s.peers then
        { s with
          progress := Function.update s.progress resp.responderId
            (replyProgress (s.progress resp.responderId) resp) } else s) = s1
      have hreach : Reaches members i s g s1 g ∧ s1.role = .leader := by
        rw [← hs1]
        split
        · exact ⟨hgood.setProgress hleads.1 hresp hleads.2, hleads.1⟩
        · exact ⟨hgood.stays, hleads.1⟩
      obtain ⟨h1, hrole⟩ := hreach
      dsimp only
      split
      · rename_i n hn
        obtain ⟨hlt, hlen, hcan⟩ := commitCandidate_spec hn
        exact h1.trans (h1.good.commitCounted hrole hlt hlen hcan nowSecs)
      · exact h1

/-! ## Entries from the leader -/

omit hgood in
theorem appendNew_eq_overlay {k : ℕ} (log entries : List RaftLogEntry)
    (hindex : ∀ j e, entries[j]? = some e → e.index = k + j + 1) :
    appendNew log entries = overlay term log k entries := by
  induction entries generalizing log k with
  | nil => rfl
  | cons entry rest ih =>
    have hpos : entry.index = k + 1 := hindex 0 entry rfl
    have hrest : ∀ j e, rest[j]? = some e → e.index = k + 1 + j + 1 := by
      intro j e hj
      have := hindex (j + 1) e hj
      omega
    rw [appendNew, overlay, hpos, Nat.add_sub_cancel]
    by_cases hk : k < log.length
    · rw [if_pos hk, if_pos (Nat.succ_le_of_lt hk), termAt]
      split
      · exact ih log hrest
      · exact ih _ hrest
    · rw [if_neg hk, if_neg (Nat.not_le_of_lt (by omega))]
      exact ih _ hrest

theorem follow (leaderId : String) :
    Reaches members i s g { s with role := .follower, leaderId := some leaderId } g := by
  refine hgood.reaches (Move.moves .retire) hgood.roots ?_ prefix_rfl
  exact ⟨hgood.own.id, hgood.own.peers, nofun, { hgood.own.tracks with }⟩

theorem setLog (hrole : s.role = .follower)
    (hmove : Move term members i s.view g { s.view with log := log } g')
    (hroots : g'.root = g.root) : Reaches members i s g { s with log := log } g' := by
  have hsound := hmove.sound hgood.record hgood.node hgood.member
  refine hgood.reaches hmove.moves (hroots ▸ hgood.roots) ?_ prefix_rfl
  refine ⟨hgood.own.id, hgood.own.peers, fun hleader => ?_,
    hgood.own.tracks.setLog hgood.node.commit.1 hsound.log⟩
  exact absurd (hrole.symm.trans hleader) nofun

/-- A follower that has the entry before the new ones has all of them afterwards, and nothing that its
leader has not. -/
theorem takeOver (hrole : s.role = .follower) {w : String} {base : List RaftLogEntry}
    (helected : g.elected s.currentTerm = some (w, base)) (hbase : base.length < n)
    (hn : n ≤ (g.root s.currentTerm).length) (hprev : req.prevLogIndex ≤ n)
    (hlen : req.prevLogIndex ≤ s.log.length)
    (hagree : s.log.take req.prevLogIndex = (g.root s.currentTerm).take req.prevLogIndex)
    (hentries : req.entries = ((g.root s.currentTerm).take n).drop req.prevLogIndex) :
    ∃ g', Reaches members i s g { s with log := appendNew s.log req.entries } g' ∧
      appendNew s.log req.entries <+: g'.root s.currentTerm ∧
      (appendNew s.log req.entries).length ≤ g'.acked i s.currentTerm := by
  have hfull : ((g.root s.currentTerm).take n).length = n := length_take_of_le hn
  have hroot := (hgood.record.root s.currentTerm).rooted
  have hnew : appendNew s.log req.entries =
      overlay term s.log req.prevLogIndex req.entries := by
    refine appendNew_eq_overlay s.log req.entries fun j e hj => ?_
    rw [hentries, List.getElem?_drop] at hj
    exact ((hgood.roots s.currentTerm).of_below (List.take_prefix _ _)) _ e hj
  have hrole' : s.view.role = .follower := by rw [view, hrole]; rfl
  have hlog : Rooted term g.root s.log := hgood.node.log.rooted
  have hstart : s.log.take req.prevLogIndex =
      ((g.root s.currentTerm).take n).take req.prevLogIndex := by
    rw [take_take, Nat.min_eq_left hprev]
    exact hagree
  rw [hnew, hentries]
  rcases hlog.overlay_eq (hroot.of_below (List.take_prefix n _))
    (hfull.symm ▸ hprev) hstart hlen with ⟨heq, hpre⟩ | ⟨heq, hpre⟩
  · -- everything is there
    rw [heq]
    have hmove : Move term members i s.view g _ _ :=
      .confirm hrole' helected hbase hn hpre
    refine ⟨_, hgood.setLog hrole hmove rfl, ?_, ?_⟩
    · exact hgood.node.prefix_root hgood.record helected hbase hn hpre
    · exact (Raft.put_same _ _ _ _).ge
  · rw [heq]
    have hmove : Move term members i s.view g _ _ :=
      .accept hrole' helected hbase hn hpre
    refine ⟨_, hgood.setLog hrole hmove rfl, List.take_prefix _ _, ?_⟩
    rw [hfull]
    exact (Raft.put_same _ _ _ _).ge

theorem commitFrom {w : String} {base : List RaftLogEntry} {leaderCommit t m : ℕ}
    (helected : g.elected s.currentTerm = some (w, base)) (hlog : s.log <+: g.root s.currentTerm)
    (ht : t ≤ s.currentTerm) (hchosen : Chosen term members g t m)
    (hm : leaderCommit ≤ m) (hlt : s.commitIndex < leaderCommit) (nowSecs : ℕ) :
    Reaches members i s g (s.commitTo (min leaderCommit s.log.length) nowSecs) g := by
  have hcommit : s.commitIndex ≤ s.log.length := hgood.node.commit.1
  have hle : s.commitIndex ≤ min leaderCommit s.log.length := by omega
  refine hgood.commitTo hle (Nat.min_le_right _ _) ?_ nowSecs
  exact .commitFrom helected hlog ht hchosen ((Nat.min_le_left _ _).trans hm) (Nat.min_le_right _ _) hle

theorem appendFrom (hrole : s.role = .follower) {dst : String}
    (hterm : req.term = s.currentTerm) (hreq : Justified members g (.appendEntries dst req))
    (hlen : req.prevLogIndex ≤ s.log.length)
    (hprev : 0 < req.prevLogIndex →
      termAt term s.log (req.prevLogIndex - 1) = some req.prevLogTerm) (nowSecs : ℕ) :
    let s1 := { s with log := appendNew s.log req.entries }
    let s2 := if s1.commitIndex < req.leaderCommit then
      s1.commitTo (min req.leaderCommit s1.log.length) nowSecs else s1
    ∃ g', Reaches members i s g s2 g' ∧ s2.log.length ≤ g'.acked i s2.currentTerm := by
  intro s1 s2
  obtain ⟨w, base, n, helected, hbase, hn, hle, hroot, hentries, hcommit⟩ := hreq
  rw [hterm] at helected hn hroot hentries
  have hagree : s.log.take req.prevLogIndex = (g.root s.currentTerm).take req.prevLogIndex := by
    rcases Nat.eq_zero_or_pos req.prevLogIndex with hzero | hpos
    · rw [hzero, take_zero, take_zero]
    · have hmatch := hgood.node.log.rooted.matching (hgood.record.root s.currentTerm).rooted
        (hprev hpos) (hroot hpos)
      rwa [Nat.sub_add_cancel hpos] at hmatch
  obtain ⟨g', hreach, hpre, hacked⟩ :=
    hgood.takeOver hrole helected hbase hn hle hlen hagree hentries
  have hgrows := (hreach.moves.sound hgood.record hgood.node hgood.member).grows
  by_cases hlt : s1.commitIndex < req.leaderCommit
  · have hs2 : s2 = s1.commitTo (min req.leaderCommit s1.log.length) nowSecs := if_pos hlt
    rcases hcommit with hzero | ⟨t, m, ht, hchosen, hm⟩
    · omega
    · have hreach2 := hreach.good.commitFrom (hgrows.elected _ _ helected) hpre (hterm ▸ ht)
        (hgrows.chosen hchosen) hm hlt nowSecs
      refine ⟨g', hs2 ▸ hreach.trans hreach2, ?_⟩
      obtain ⟨sm, applied, heq, -⟩ := hreach.good.own.tracks.commitTo hreach.good.indexed
        (show s1.commitIndex ≤ min req.leaderCommit s1.log.length by
          have hcommit : s1.commitIndex ≤ s1.log.length := hreach.good.node.commit.1
          omega) (Nat.min_le_right _ _) nowSecs
      rw [hs2, heq]
      exact hacked
  · have hs2 : s2 = s1 := if_neg hlt
    rw [hs2]
    exact ⟨g', hreach, hacked⟩

theorem handleAppendEntries {dst : String}
    (hreq : Justified members g (.appendEntries dst req)) (nowSecs : ℕ) :
    ∃ g', Reaches members i s g (s.handleAppendEntries req nowSecs).1 g' ∧
      Justified members g' (.appendReply req.leaderId (s.handleAppendEntries req nowSecs).2) := by
  rw [RaftCoordinator.handleAppendEntries]
  generalize hs1 : (if s.currentTerm < req.term then s.advanceTerm req.term else s) = s1
  have hreach : Reaches members i s g s1 g ∧ req.term ≤ s1.currentTerm := by
    rw [← hs1]
    split
    · rename_i hlt
      exact ⟨hgood.advanceTerm hlt, le_rfl⟩
    · exact ⟨hgood.stays, by omega⟩
  obtain ⟨h1, hge⟩ := hreach
  dsimp only
  split
  · exact ⟨g, h1, nofun⟩
  have hterm : req.term = s1.currentTerm := by omega
  have h2 := h1.trans (h1.good.follow req.leaderId)
  split
  · exact ⟨g, h2, nofun⟩
  split
  · -- the entry before the new ones is another one
    rename_i hdiffer
    obtain ⟨w, base, n, helected, hbase, hn, hle, hroot, -⟩ := hreq
    rw [hterm] at helected hn hroot
    have hcut : Move term members i
        { s1 with role := .follower, leaderId := some req.leaderId : RaftCoordinator }.view g _ _ :=
      .truncate rfl helected (by
        show req.prevLogIndex - 1 < (g.root s1.currentTerm).length
        omega) fun heq => hdiffer.2 (heq.trans (hroot hdiffer.1))
    exact ⟨g, h2.trans (h2.good.setLog rfl hcut rfl), nofun⟩
  · rename_i hsame
    have hlen : req.prevLogIndex ≤ s1.log.length := by omega
    obtain ⟨g', hreach, hacked⟩ := h2.good.appendFrom rfl hterm hreq hlen (fun hpos => by
      by_contra hne
      exact hsame ⟨hpos, hne⟩) nowSecs
    refine ⟨g', h2.trans hreach, fun _ => ?_⟩
    rw [hreach.good.own.id]
    exact hacked

end Good

end Velcrux.Consensus
