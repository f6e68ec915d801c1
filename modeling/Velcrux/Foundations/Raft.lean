import Velcrux.Foundations.TermLog

/-!
# Leaders, terms and replicated logs

A node leads in a term if a majority has voted for it there, after a look at its log. The others
take parts of its log over, and what a majority has of a leader's own entries is committed. The
state records the logs of candidates, votes, elections and leaders, and how much every node has
taken over in a term. The record only grows.
-/

namespace Raft

open TermLog Function

inductive Role where
  | follower
  | candidate
  | leader
deriving DecidableEq

structure Node (ι α : Type) where
  term : ℕ
  vote : Option ι
  role : Role
  votes : Finset ι
  log : List α
  commit : ℕ

structure Record (ι α : Type) where
  campaign : ι → ℕ → Option (List α)
  cast : ι → ℕ → Option (ι × List α)
  elected : ℕ → Option (ι × List α)
  root : ℕ → List α
  acked : ι → ℕ → ℕ

structure State (ι α : Type) where
  node : ι → Node ι α
  record : Record ι α

variable {ι α : Type} [DecidableEq ι]

def Record.empty : Record ι α := ⟨fun _ _ => none, fun _ _ => none, fun _ => none, fun _ => [], fun _ _ => 0⟩

variable {β : Type} (f : ι → ℕ → β)

def put (i : ι) (t : ℕ) (x : β) : ι → ℕ → β :=
  update f i (update (f i) t x)

theorem put_same (i : ι) (t : ℕ) (x : β) : put f i t x i t = x := by
  rw [put, update_self, update_self]

theorem put_other {i j : ι} (t : ℕ) (x : β) (h : j ≠ i) : put f i t x j = f j := by
  rw [put, update_of_ne h]

theorem put_later (i : ι) {t u : ℕ} (x : β) (h : u ≠ t) : put f i t x i u = f i u := by
  rw [put, update_self, update_of_ne h]

variable (termOf : α → ℕ) (members : Finset ι)

def Majority (q : Finset ι) : Prop := q ⊆ members ∧ members.card < 2 * q.card

variable {members} in
theorem Majority.inter {q q' : Finset ι} (h : Majority members q) (h' : Majority members q') :
    ∃ v, v ∈ q ∧ v ∈ q' := by
  have hcard : members.card < q.card + q'.card := by
    have := h.2
    have := h'.2
    omega
  obtain ⟨v, hv⟩ := Finset.inter_nonempty_of_card_lt_card_add_card h.1 h'.1 hcard
  exact ⟨v, Finset.mem_inter.mp hv⟩

def Chosen (g : Record ι α) (t n : ℕ) : Prop :=
  0 < n ∧ termAt termOf (g.root t) (n - 1) = some t ∧
    ∃ q, Majority members q ∧ ∀ v ∈ q, n ≤ g.acked v t

/-! ## Steps -/

def Node.advance (n : Node ι α) (t : ℕ) : Node ι α := { n with term := t, vote := none, role := .follower }

def State.set (a : State ι α) (i : ι) (n : Node ι α) (g : Record ι α) : State ι α :=
  ⟨update a.node i n, g⟩

inductive Move (i : ι) : Node ι α → Record ι α → Node ι α → Record ι α → Prop
  | advance {n : Node ι α} {g : Record ι α} {t : ℕ} (ht : n.term < t) : Move i n g (n.advance t) g
  | retire {n : Node ι α} {g : Record ι α} : Move i n g { n with role := .follower } g
  | campaign {n : Node ι α} {g : Record ι α} :
    Move i n g
      { n with term := n.term + 1, vote := some i, role := .candidate, votes := {i} }
      { g with
        campaign := put g.campaign i (n.term + 1) (some n.log)
        cast := put g.cast i (n.term + 1) (some (i, n.log)) }
  | grant {n : Node ι α} {g : Record ι α} {c : ι} {log : List α} (hvote : n.vote = none)
      (hcampaign : g.campaign c n.term = some log) (hlog : UpToDate termOf log n.log) :
    Move i n g { n with vote := some c } { g with cast := put g.cast i n.term (some (c, n.log)) }
  | count {n : Node ι α} {g : Record ι α} {v : ι} {log : List α} (hrole : n.role = .candidate)
      (hcast : g.cast v n.term = some (i, log)) :
    Move i n g { n with votes := insert v n.votes } g
  | win {n : Node ι α} {g : Record ι α} {e : α} (hrole : n.role = .candidate)
      (hmajority : members.card < 2 * n.votes.card) (he : termOf e = n.term) :
    Move i n g { n with role := .leader, log := n.log ++ [e] }
      { g with
        elected := update g.elected n.term (some (i, n.log))
        root := update g.root n.term (n.log ++ [e])
        acked := put g.acked i n.term (n.log.length + 1) }
  | append {n : Node ι α} {g : Record ι α} {e : α} (hrole : n.role = .leader)
      (he : termOf e = n.term) :
    Move i n g { n with log := n.log ++ [e] }
      { g with
        root := update g.root n.term (n.log ++ [e])
        acked := put g.acked i n.term (n.log.length + 1) }
  | accept {n : Node ι α} {g : Record ι α} {k : ℕ} {w : ι} {base : List α}
      (hrole : n.role = .follower) (helected : g.elected n.term = some (w, base))
      (hbase : base.length < k) (hk : k ≤ (g.root n.term).length)
      (hnew : ¬ (g.root n.term).take k <+: n.log) :
    Move i n g { n with log := (g.root n.term).take k } { g with acked := put g.acked i n.term k }
  | confirm {n : Node ι α} {g : Record ι α} {k : ℕ} {w : ι} {base : List α}
      (hrole : n.role = .follower) (helected : g.elected n.term = some (w, base))
      (hbase : base.length < k) (hk : k ≤ (g.root n.term).length)
      (hold : (g.root n.term).take k <+: n.log) :
    Move i n g n { g with acked := put g.acked i n.term n.log.length }
  | truncate {n : Node ι α} {g : Record ι α} {k : ℕ} {w : ι} {base : List α}
      (hrole : n.role = .follower) (helected : g.elected n.term = some (w, base))
      (hk : k < (g.root n.term).length)
      (hdiffer : termAt termOf n.log k ≠ termAt termOf (g.root n.term) k) :
    Move i n g { n with log := n.log.take k } g
  | commitOwn {n : Node ι α} {g : Record ι α} {k : ℕ} (hrole : n.role = .leader)
      (hchosen : Chosen termOf members g n.term k) (hk : n.commit ≤ k) :
    Move i n g { n with commit := k } g
  | commitFrom {n : Node ι α} {g : Record ι α} {k t m : ℕ} {w : ι} {base : List α}
      (helected : g.elected n.term = some (w, base)) (hlog : n.log <+: g.root n.term)
      (ht : t ≤ n.term) (hchosen : Chosen termOf members g t m) (hkm : k ≤ m)
      (hk : k ≤ n.log.length) (hcommit : n.commit ≤ k) :
    Move i n g { n with commit := k } g

inductive Moves (i : ι) (n : Node ι α) (g : Record ι α) : Node ι α → Record ι α → Prop
  | refl : Moves i n g n g
  | tail {n' n'' : Node ι α} {g' g'' : Record ι α} (h : Moves i n g n' g')
      (h' : Move termOf members i n' g' n'' g'') : Moves i n g n'' g''

variable {termOf members} in
theorem Move.moves {i : ι} {n n' : Node ι α} {g g' : Record ι α} (h : Move termOf members i n g n' g') :
    Moves termOf members i n g n' g' := .tail .refl h

variable {termOf members} in
theorem Moves.trans {i : ι} {n n' n'' : Node ι α} {g g' g'' : Record ι α}
    (h : Moves termOf members i n g n' g') (h' : Moves termOf members i n' g' n'' g'') :
    Moves termOf members i n g n'' g'' := by
  induction h' with
  | refl => exact h
  | tail _ hmove ih => exact ih.tail hmove

end Raft
