import Velcrux.Session.Connection

/-!
# Proofs: no service before authentication

One lemma for each state of the loop says what a turn does. By induction on the turns, a run is
quiet up to the answer of the authenticator that accepts, and authorizes for the accepted identity
after it.
-/

namespace Velcrux.Session

open Auth (Identity)
open Wire List Session.Action

variable {cfg : ConnConfig} {c : Conn} {t : Turn} {f : Frame} {identity : Identity}
variable {as : List Action} {first : Action}

def Action.IsQuiet (a : Action) : Prop :=
  a.isService = false ∧ a.authorizedFor = none ∧ a.acceptedIdentity = none

def Action.IsFor (identity : Identity) (a : Action) : Prop :=
  a.isAttempt = false ∧ a.acceptedIdentity = none ∧
    ∀ other, a.authorizedFor = some other → other = identity

def Quiet (as : List Action) : Prop := ∀ a ∈ as, a.IsQuiet

def For (identity : Identity) (as : List Action) : Prop := ∀ a ∈ as, a.IsFor identity

def attempts (as : List Action) : ℕ := as.countP isAttempt

theorem attempts_append (as bs : List Action) : attempts (as ++ bs) = attempts as + attempts bs :=
  countP_append

theorem attempts_eq_zero (h : ∀ a ∈ as, a.isAttempt = false) : attempts as = 0 := by
  refine countP_eq_zero.2 fun a ha => ?_
  rw [h a ha]
  decide

theorem quiet_nil : Quiet [] := forall_mem_nil _

theorem for_nil (identity : Identity) : For identity [] := forall_mem_nil _

theorem Quiet.append {bs : List Action} (ha : Quiet as) (hb : Quiet bs) : Quiet (as ++ bs) :=
  forall_mem_append.2 ⟨ha, hb⟩

theorem For.append {bs : List Action} (ha : For identity as) (hb : For identity bs) :
    For identity (as ++ bs) :=
  forall_mem_append.2 ⟨ha, hb⟩

def Action.isFarewell : Action → Bool
  | .reply m _ => handshakeReply m
  | .close .. => true
  | _ => false

def Farewell (as : List Action) : Prop := ∀ a ∈ as, a.isFarewell

theorem replyError_farewell (f : Frame) (code : ErrorCode) (detail : String) {later : List Action}
    (next : Next) (hlater : Farewell later) :
    Farewell (replyError f code detail later next).1 ∧
      ((replyError f code detail later next).2 = next ∨
        ∃ r, (replyError f code detail later next).2 = .stop r) := by
  unfold replyError
  cases ErrorMsg.new code detail with
  | error e => exact ⟨forall_mem_nil _, .inr ⟨_, rfl⟩⟩
  | ok m => exact ⟨forall_mem_cons.2 ⟨rfl, hlater⟩, .inl rfl⟩

theorem Action.of_isFarewell {a : Action} (h : a.isFarewell) : a.IsQuiet ∧ a.isAttempt = false := by
  cases a with
  | reply m requestId =>
    have hreply : handshakeReply m = true := h
    exact ⟨⟨by simp [isService, hreply], rfl, rfl⟩, rfl⟩
  | close code reason => exact ⟨⟨rfl, rfl, rfl⟩, rfl⟩
  | _ => cases h

theorem quiet_of_farewell (h : Farewell as) : Quiet as := fun a ha => (of_isFarewell (h a ha)).1

theorem attempts_farewell (h : Farewell as) : attempts as = 0 :=
  attempts_eq_zero fun a ha => (of_isFarewell (h a ha)).2

theorem for_of_farewell (h : Farewell as) : For identity as := by
  intro a ha
  obtain ⟨⟨-, hnobody, hnone⟩, hattempt⟩ := of_isFarewell (h a ha)
  exact ⟨hattempt, hnone, by simp [hnobody]⟩

theorem farewell_close (code : ErrorCode) (reason : String) : Farewell [.close code reason] :=
  forall_mem_singleton.2 rfl

theorem replyError_stops (f : Frame) (code : ErrorCode) (detail closing : String) (r : ConnResult) :
    Farewell (replyError f code detail [.close code closing] (.stop r)).1 ∧
      ∃ r', (replyError f code detail [.close code closing] (.stop r)).2 = .stop r' := by
  obtain ⟨hfare, hnext⟩ := replyError_farewell f code detail (.stop r) (farewell_close code closing)
  exact ⟨hfare, hnext.elim (fun h => ⟨r, h⟩) id⟩

theorem outOfOrder_stops (f : Frame) (code : ErrorCode) (detail closing : String)
    (e : ProtocolError) :
    Farewell (outOfOrder f code detail closing e).1 ∧
      ∃ r, (outOfOrder f code detail closing e).2 = .stop r :=
  replyError_stops f code detail closing _

theorem isQuiet_received (f : Frame) : IsQuiet (.received f) := ⟨rfl, rfl, rfl⟩

theorem quiet_received (f : Frame) : Quiet [.received f] := forall_mem_singleton.2 (isQuiet_received f)

/-! ## One turn in each state -/

theorem awaitHello_cases (cfg : ConnConfig) (c : Conn) (t : Turn) (f : Frame) :
    Farewell (awaitHello cfg c t f).1 ∧ ((∃ r, (awaitHello cfg c t f).2 = .stop r) ∨
      ValidHello cfg f ∧ (awaitHello cfg c t f).2 = .goOn { c with state := .awaitAuth }) := by
  unfold awaitHello
  by_cases htype : f.typeByte = 0x01
  · rw [if_neg (not_not.2 htype)]
    cases hdecode : Hello.decode.run f.payload with
    | error e => exact ⟨forall_mem_nil _, .inl ⟨_, rfl⟩⟩
    | ok hello =>
      dsimp only
      cases hvalid : (hello.capabilities.intersect cfg.serverCaps).validateIntersection with
      | error s => exact (replyError_stops f _ s _ _).imp_right .inl
      | ok =>
        refine ⟨forall_mem_singleton.2 rfl, ?_⟩
        by_cases hwritten : t.written
        · exact .inr ⟨⟨htype, hello, hdecode, hvalid⟩, if_pos hwritten⟩
        · exact .inl ⟨_, if_neg hwritten⟩
  · rw [if_pos htype]
    exact (outOfOrder_stops f _ _ _ _).imp_right .inl

/-- What a turn in AWAIT_AUTH does: it ends without an acceptance after at most one attempt; or one
attempt fails below the limit; or the authenticator accepts. -/
inductive AuthTurn (cfg : ConnConfig) (c : Conn) : List Action × Next → Prop
  | ends {as : List Action} {r : ConnResult} (hquiet : Quiet as) (hattempts : attempts as ≤ 1) :
      AuthTurn cfg c (as, .stop r)
  | retries {as : List Action} (hquiet : Quiet as) (hattempts : attempts as ≤ 1)
      (hlimit : c.authAttempts + 1 < cfg.maxAuthAttempts) :
      AuthTurn cfg c (as, .goOn { c with authAttempts := c.authAttempts + 1 })
  | accepts {pre : List Action} {credential : Credential} {identity : Identity} {as : List Action}
      {next : Next} (hpre : Quiet pre) (hnone : attempts pre = 0) (hfor : For identity as)
      (hnext : next = .goOn ⟨.serving, 0, some identity⟩ ∨ ∃ r, next = .stop r) :
      AuthTurn cfg c (pre ++ .authenticate credential (.ok identity) :: as, next)

theorem quiet_attempt (hfirst : first.IsQuiet) (h : Farewell as) :
    Quiet (first :: as) ∧ attempts (first :: as) ≤ 1 := by
  refine ⟨forall_mem_cons.2 ⟨hfirst, quiet_of_farewell h⟩, ?_⟩
  have hrest : as.countP isAttempt = 0 := attempts_farewell h
  rw [attempts, countP_cons]
  split <;> omega

theorem refused_turn (hfirst : first.IsQuiet) (cfg : ConnConfig) (c : Conn) (f : Frame)
    (detail closing : String) :
    AuthTurn cfg c (after [first]
      (replyError f .authFailed detail [.close .authFailed closing] (.stop (.ended .closed)))) := by
  obtain ⟨hfare, r, hr⟩ := replyError_stops f .authFailed detail closing (.ended .closed)
  obtain ⟨hquiet, hattempts⟩ := quiet_attempt hfirst hfare
  rw [after, hr]
  exact .ends hquiet hattempts

theorem failedAttempt_turn (hfirst : first.IsQuiet) (cfg : ConnConfig) (c : Conn) (f : Frame)
    (detail : String) : AuthTurn cfg c (after [first] (failedAttempt cfg c f detail)) := by
  unfold failedAttempt
  by_cases hlimit : cfg.maxAuthAttempts ≤ c.authAttempts + 1
  · rw [if_pos hlimit]
    exact refused_turn hfirst cfg c f _ _
  · rw [if_neg hlimit]
    obtain ⟨hfare, hnext⟩ := replyError_farewell f .authFailed detail
      (.goOn { c with authAttempts := c.authAttempts + 1 }) (forall_mem_nil _)
    obtain ⟨hquiet, hattempts⟩ := quiet_attempt hfirst hfare
    rcases hnext with hnext | ⟨r, hr⟩
    · rw [after, hnext]
      exact .retries hquiet hattempts (by omega)
    · rw [after, hr]
      exact .ends hquiet hattempts

theorem accepted_turn (cfg : ConnConfig) (c : Conn) (t : Turn) (f : Frame) (credential : Credential)
    (identity : Identity) :
    AuthTurn cfg c (after [.authenticate credential (.ok identity)] (accepted t f identity)) := by
  refine .accepts quiet_nil rfl ?_ ?_
  · refine forall_mem_cons.2 ⟨⟨rfl, rfl, ?_⟩, forall_mem_singleton.2 ⟨rfl, rfl, nofun⟩⟩
    rintro other ⟨⟩
    rfl
  · by_cases hwritten : t.written
    · exact .inl (if_pos hwritten)
    · exact .inr ⟨_, if_neg hwritten⟩

theorem awaitAuth_turn (cfg : ConnConfig) (c : Conn) (t : Turn) (f : Frame) :
    AuthTurn cfg c (awaitAuth cfg c t f) := by
  have hrefuse : Quiet [.refuseAuth f] ∧ attempts [.refuseAuth f] ≤ 1 :=
    quiet_attempt ⟨rfl, rfl, rfl⟩ (forall_mem_nil _)
  unfold awaitAuth
  by_cases htype : f.typeByte = 0x03
  · rw [if_neg (not_not.2 htype)]
    cases Auth.decode.run f.payload with
    | error e => exact .ends hrefuse.1 hrefuse.2
    | ok auth =>
      dsimp only
      by_cases hmtls : auth.mechanism = authMechanismMtls
      · rw [if_pos hmtls]
        cases cfg.peerIdentity with
        | none => exact .ends hrefuse.1 hrefuse.2
        | some peer =>
          cases t.answer with
          | ok identity => exact accepted_turn cfg c t f _ identity
          | error e => exact refused_turn ⟨rfl, rfl, rfl⟩ cfg c f _ _
      · rw [if_neg hmtls]
        by_cases hpubkey : auth.mechanism = authMechanismSshPubkey
        · rw [if_pos hpubkey]
          cases t.exporter with
          | error e => exact refused_turn ⟨rfl, rfl, rfl⟩ cfg c f _ _
          | ok =>
            cases t.answer with
            | ok identity => exact accepted_turn cfg c t f _ identity
            | error e => exact failedAttempt_turn ⟨rfl, rfl, rfl⟩ cfg c f _
        · rw [if_neg hpubkey]
          exact failedAttempt_turn ⟨rfl, rfl, rfl⟩ cfg c f _
  · rw [if_pos htype]
    obtain ⟨hfare, r, hr⟩ := outOfOrder_stops f .protocolViolation
      "protocol violation: expected AUTH" "protocol violation: expected AUTH"
      (.invalidStateTransition "expected AUTH")
    rw [← Prod.mk.eta (p := outOfOrder _ _ _ _ _)]
    refine .ends (quiet_of_farewell hfare) ?_
    rw [attempts_farewell hfare]
    omega

theorem for_perform (identity : Identity) (calls : List HandlerCall) :
    For identity (calls.map (HandlerCall.perform identity)) := by
  intro a ha
  obtain ⟨call, -, rfl⟩ := mem_map.1 ha
  cases call <;> refine ⟨rfl, rfl, ?_⟩ <;> rintro other ⟨⟩ <;> rfl

theorem serving_cases (c : Conn) (identity : Identity) (t : Turn) (f : Frame) :
    For identity (serving c identity t f).1 ∧
      ((serving c identity t f).2 = .goOn c ∨ ∃ r, (serving c identity t f).2 = .stop r) := by
  have hout : ∀ code detail closing e, For identity (outOfOrder f code detail closing e).1 ∧
      ((outOfOrder f code detail closing e).2 = .goOn c ∨
        ∃ r, (outOfOrder f code detail closing e).2 = .stop r) := by
    intro code detail closing e
    obtain ⟨hfare, hstop⟩ := outOfOrder_stops f code detail closing e
    exact ⟨for_of_farewell hfare, .inr hstop⟩
  unfold serving
  by_cases hping : f.typeByte = 0x06
  · rw [if_pos hping]
    cases Ping.decode.run f.payload with
    | error e => exact ⟨for_nil identity, .inr ⟨_, rfl⟩⟩
    | ok ping =>
      refine ⟨forall_mem_singleton.2 ⟨rfl, rfl, nofun⟩, ?_⟩
      by_cases hwritten : t.written
      · exact .inl (if_pos hwritten)
      · exact .inr ⟨_, if_neg hwritten⟩
  rw [if_neg hping]
  by_cases hbye : f.typeByte = 0x07
  · rw [if_pos hbye]
    exact ⟨for_nil identity, .inr ⟨_, rfl⟩⟩
  rw [if_neg hbye]
  by_cases hhandled : f.typeByte ∈ handledTypes
  · rw [if_pos hhandled]
    exact ⟨for_perform identity t.calls, .inl rfl⟩
  split_ifs
  · exact hout _ _ _ _
  · exact hout _ _ _ _
  · exact hout _ _ _ _

/-! ## Whole runs -/

theorem withFrame_cases (c : Conn) (t : Turn) (k : Frame → List Action × Next) :
    (∃ r, withFrame c t k = ([], .stop r)) ∨ ∃ f, withFrame c t k = after [.received f] (k f) := by
  unfold withFrame
  cases t.next with
  | failed e => exact .inl ⟨_, rfl⟩
  | ended => exact .inl ⟨_, rfl⟩
  | frame f => exact .inr ⟨f, rfl⟩

theorem runFrom_stop {cfg : ConnConfig} {c : Conn} {t : Turn} {ts : List Turn}
    {r : ConnResult} (h : turn cfg c t = (as, .stop r)) : runFrom cfg c (t :: ts) = as := by
  rw [runFrom, h]

theorem runFrom_goOn {cfg : ConnConfig} {c c' : Conn} {t : Turn} {ts : List Turn} (h : turn cfg c t = (as, .goOn c')) :
    runFrom cfg c (t :: ts) = as ++ runFrom cfg c' ts := by
  rw [runFrom, h]

theorem AuthTurn.received {r : List Action × Next} (h : AuthTurn cfg c r) (f : Frame) :
    AuthTurn cfg c (after [.received f] r) := by
  have hzero : attempts [.received f] = 0 := rfl
  have hfirst := quiet_received f
  cases h with
  | ends hquiet hattempts =>
    refine .ends (hfirst.append hquiet) ?_
    exact hattempts
  | retries hquiet hattempts hlimit =>
    refine .retries (hfirst.append hquiet) ?_ hlimit
    exact hattempts
  | accepts hpre hnone hfor hnext =>
    refine .accepts (hfirst.append hpre) ?_ hfor hnext
    rw [attempts_append, hzero, hnone]

theorem turn_rejected (hmigration : ¬ t.migrationAllowed) :
    turn cfg c t = ([.close .protocolViolation "connection migration rejected by policy"],
      .stop (.ended .closed)) := by
  rw [turn, if_pos hmigration]

theorem turn_awaitAuth (cfg : ConnConfig) (hstate : c.state = .awaitAuth) (t : Turn) :
    AuthTurn cfg c (turn cfg c t) := by
  by_cases hmigration : t.migrationAllowed
  · rw [turn, if_neg (not_not.2 hmigration), hstate]
    rcases withFrame_cases c t (awaitAuth cfg c t) with ⟨r, hr⟩ | ⟨f, hf⟩
    · rw [hr]
      exact .ends quiet_nil (Nat.zero_le _)
    · rw [hf]
      exact (awaitAuth_turn cfg c t f).received f
  · rw [turn_rejected hmigration]
    have hfare := farewell_close .protocolViolation "connection migration rejected by policy"
    exact .ends (quiet_of_farewell hfare) (Nat.zero_le _)

theorem turn_serving (cfg : ConnConfig) (hstate : c.state = .serving)
    (hidentity : c.authenticatedIdentity = some identity) (t : Turn) : For identity (turn cfg c t).1 ∧
      ((turn cfg c t).2 = .goOn c ∨ ∃ r, (turn cfg c t).2 = .stop r) := by
  by_cases hmigration : t.migrationAllowed
  · rw [turn, if_neg (not_not.2 hmigration), hstate]
    simp only [hidentity]
    rcases withFrame_cases c t (serving c identity t) with ⟨r, hr⟩ | ⟨f, hf⟩
    · rw [hr]
      exact ⟨for_nil identity, .inr ⟨_, rfl⟩⟩
    · obtain ⟨hfor, hnext⟩ := serving_cases c identity t f
      rw [hf]
      exact ⟨forall_mem_cons.2 ⟨⟨rfl, rfl, nofun⟩, hfor⟩, hnext⟩
  · rw [turn_rejected hmigration]
    exact ⟨for_of_farewell (farewell_close _ _), .inr ⟨_, rfl⟩⟩

theorem runFrom_serving (hstate : c.state = .serving)
    (hidentity : c.authenticatedIdentity = some identity) (ts : List Turn) :
    For identity (runFrom cfg c ts) := by
  induction ts with
  | nil => exact for_nil identity
  | cons t ts ih =>
    obtain ⟨hfor, hnext⟩ := turn_serving cfg hstate hidentity t
    rcases hnext with hnext | ⟨r, hr⟩
    · have hturn : turn cfg c t = ((turn cfg c t).1, .goOn c) := Prod.ext rfl hnext
      rw [runFrom_goOn hturn]
      exact hfor.append ih
    · have hturn : turn cfg c t = ((turn cfg c t).1, .stop r) := Prod.ext rfl hr
      rw [runFrom_stop hturn]
      exact hfor

/-- The trace of a run from AWAIT_AUTH with at most `n` attempts: nobody is accepted, or one identity
is and everything after it is for that identity. -/
inductive AuthTrace (n : ℕ) : List Action → Prop
  | quiet {as : List Action} (hquiet : Quiet as) (hattempts : attempts as ≤ n) : AuthTrace n as
  | served {pre post : List Action} {credential : Credential} {identity : Identity}
      (hpre : Quiet pre) (hattempts : attempts pre + 1 ≤ n) (hpost : For identity post) :
      AuthTrace n (pre ++ .authenticate credential (.ok identity) :: post)

theorem AuthTrace.after_attempt {n : ℕ} {trace : List Action} (hquiet : Quiet as)
    (hattempts : attempts as ≤ 1) (h : AuthTrace n trace) : AuthTrace (n + 1) (as ++ trace) := by
  cases h with
  | quiet hlater hle =>
    refine .quiet (hquiet.append hlater) ?_
    rw [attempts_append]
    omega
  | served hpre hle hpost =>
    rw [← append_assoc]
    refine .served (hquiet.append hpre) ?_ hpost
    rw [attempts_append]
    omega

/-- The run from AWAIT_AUTH: by induction on the turns, with the attempts that are left. -/
theorem runFrom_awaitAuth (hstate : c.state = .awaitAuth)
    (hleft : c.authAttempts < max 1 cfg.maxAuthAttempts) (ts : List Turn) :
    AuthTrace (max 1 cfg.maxAuthAttempts - c.authAttempts) (runFrom cfg c ts) := by
  induction ts generalizing c with
  | nil => exact .quiet quiet_nil (Nat.zero_le _)
  | cons t ts ih =>
    have hturn := turn_awaitAuth cfg hstate t
    generalize hr : turn cfg c t = r at hturn
    cases hturn with
    | ends hquiet hattempts =>
      rw [runFrom_stop hr]
      exact .quiet hquiet (by omega)
    | retries hquiet hattempts hlimit =>
      rw [runFrom_goOn hr]
      have hlater := ih (c := { c with authAttempts := c.authAttempts + 1 }) hstate
        (lt_of_lt_of_le hlimit (le_max_right ..))
      have hcount : max 1 cfg.maxAuthAttempts - c.authAttempts =
          max 1 cfg.maxAuthAttempts - (c.authAttempts + 1) + 1 := by omega
      rw [hcount]
      exact hlater.after_attempt hquiet hattempts
    | accepts hpre hnone hfor hnext =>
      rcases hnext with rfl | ⟨r, rfl⟩
      · rw [runFrom_goOn hr, append_assoc]
        refine .served hpre (by omega) (hfor.append ?_)
        exact runFrom_serving rfl rfl ts
      · rw [runFrom_stop hr]
        exact .served hpre (by omega) hfor

theorem turn_awaitHello (cfg : ConnConfig) (hstate : c.state = .awaitHello) (t : Turn) :
    (Quiet (turn cfg c t).1 ∧ attempts (turn cfg c t).1 = 0 ∧ ∃ r, (turn cfg c t).2 = .stop r) ∨
    ∃ f as, turn cfg c t = (.received f :: as, .goOn { c with state := .awaitAuth }) ∧
      ValidHello cfg f ∧ Farewell as := by
  by_cases hmigration : t.migrationAllowed
  · rw [turn, if_neg (not_not.2 hmigration), hstate]
    rcases withFrame_cases c t (awaitHello cfg c t) with ⟨r, hr⟩ | ⟨f, hf⟩
    · rw [hr]
      exact .inl ⟨quiet_nil, rfl, r, rfl⟩
    · rw [hf]
      obtain ⟨hfare, ⟨r, hr⟩ | ⟨hvalid, hnext⟩⟩ := awaitHello_cases cfg c t f
      · refine .inl ⟨(quiet_received f).append (quiet_of_farewell hfare), ?_, r, hr⟩
        change attempts ([.received f] ++ _) = 0
        rw [attempts_append, attempts_farewell hfare]
        rfl
      · exact .inr ⟨f, _, Prod.ext rfl hnext, hvalid, hfare⟩
  · rw [turn_rejected hmigration]
    have hfare := farewell_close .protocolViolation "connection migration rejected by policy"
    exact .inl ⟨quiet_of_farewell hfare, attempts_farewell hfare, _, rfl⟩

theorem run_cases (cfg : ConnConfig) (ts : List Turn) :
    (Quiet (run cfg ts) ∧ attempts (run cfg ts) = 0) ∨
    ∃ f as trace, run cfg ts = .received f :: (as ++ trace) ∧ ValidHello cfg f ∧
      Farewell as ∧ AuthTrace (max 1 cfg.maxAuthAttempts) trace := by
  unfold run
  cases ts with
  | nil => exact .inl ⟨quiet_nil, rfl⟩
  | cons t ts =>
    rcases turn_awaitHello cfg (c := .start) rfl t with ⟨hquiet, hzero, r, hr⟩ |
        ⟨f, as, hturn, hvalid, hfare⟩
    · have hturn : turn cfg .start t = ((turn cfg .start t).1, .stop r) := Prod.ext rfl hr
      rw [runFrom_stop hturn]
      exact .inl ⟨hquiet, hzero⟩
    · rw [runFrom_goOn hturn]
      refine .inr ⟨f, as, _, rfl, hvalid, hfare, ?_⟩
      exact runFrom_awaitAuth (c := ⟨.awaitAuth, 0, none⟩) rfl (by simp) ts

/-! ## The contract -/

theorem exists_after {α : Type} {p : α → Prop} {as bs pre post : List α} {a b : α}
    (has : ∀ x ∈ as, ¬ p x) (hb : ¬ p b) (ha : p a) (h : as ++ b :: bs = pre ++ a :: post) :
    ∃ mid, pre = as ++ b :: mid ∧ bs = mid ++ a :: post := by
  rcases append_eq_append_iff.1 h with ⟨mid, rfl, hmid⟩ | ⟨mid, rfl, hmid⟩
  · cases mid with
    | nil =>
      cases hmid
      exact absurd ha hb
    | cons x mid =>
      cases hmid
      exact ⟨mid, rfl, rfl⟩
  · cases mid with
    | nil =>
      cases hmid
      exact absurd ha hb
    | cons x mid =>
      cases hmid
      exact absurd ha (has a (by simp))

theorem servedAfterAuth_of_quiet {trace : List Action} (hquiet : Quiet trace)
    (hattempts : attempts trace ≤ max 1 cfg.maxAuthAttempts) : ServedAfterAuth cfg trace where
  service := by
    intro pre a post htrace hservice
    have ha := hquiet a (by rw [htrace]; simp)
    rw [ha.1] at hservice
    cases hservice
  identity := by
    intro pre a post identity htrace hfor
    have ha := hquiet a (by rw [htrace]; simp)
    rw [ha.2.1] at hfor
    cases hfor
  attempts := hattempts

theorem servedAfterAuth_of_accepted {pre post : List Action} {credential : Credential}
    (hvalid : ValidHello cfg f) (hbefore : Quiet (.received f :: as ++ pre))
    (hattempts : attempts (.received f :: as ++ pre) + 1 ≤ max 1 cfg.maxAuthAttempts)
    (hpost : For identity post) : ServedAfterAuth cfg
      (.received f :: as ++ pre ++ .authenticate credential (.ok identity) :: post) where
  service := by
    intro pre' a post' hsplit hservice
    have hquiet : ∀ x ∈ .received f :: as ++ pre, ¬ x.isService = true := by
      intro x hx
      rw [(hbefore x hx).1]
      decide
    obtain ⟨mid, rfl, -⟩ := exists_after hquiet (by simp [isService]) hservice hsplit
    refine ⟨[], f, as ++ pre, .authenticate credential (.ok identity), mid, identity, ?_, hvalid, rfl⟩
    simp
  identity := by
    intro pre' a post' identity' hsplit hfor
    have hquiet : ∀ x ∈ .received f :: as ++ pre, ¬ x.authorizedFor ≠ none := by
      intro x hx
      exact not_not.2 (hbefore x hx).2.1
    have ha : a.authorizedFor ≠ none := by
      rw [hfor]
      exact Option.some_ne_none _
    obtain ⟨mid, rfl, rfl⟩ := exists_after hquiet
      (not_not.2 rfl) ha hsplit
    obtain rfl : identity' = identity := (hpost a (by simp)).2.2 identity' hfor
    refine ⟨⟨.authenticate credential (.ok identity'), by simp, rfl⟩, ?_⟩
    intro b hb other hother
    rcases mem_append.1 hb with hb | hb
    · rw [(hbefore b hb).2.2] at hother
      cases hother
    · rcases mem_cons.1 hb with rfl | hb
      · cases hother
        rfl
      · rw [(hpost b hb).2.1] at hother
        cases hother
  attempts := by
    have hzero : post.countP isAttempt = 0 := attempts_eq_zero fun a ha => (hpost a ha).1
    rw [countP_append, countP_cons, hzero]
    exact hattempts

/-- No service before authentication, one identity for all of it, and a bounded number of attempts:
for every sequence of frames and every sequence of answers. -/
theorem servedAfterAuth_run (cfg : ConnConfig) (ts : List Turn) :
    ServedAfterAuth cfg (run cfg ts) := by
  rcases run_cases cfg ts with ⟨hquiet, hzero⟩ | ⟨f, as, trace, hrun, hvalid, hfare, htrace⟩
  · exact servedAfterAuth_of_quiet hquiet (by omega)
  have hstart : Quiet (.received f :: as) := (quiet_received f).append (quiet_of_farewell hfare)
  have hnone : attempts (.received f :: as) = 0 := by
    change attempts ([.received f] ++ as) = 0
    rw [attempts_append, attempts_farewell hfare]
    rfl
  rw [hrun, ← cons_append]
  cases htrace with
  | quiet hquiet hattempts =>
    refine servedAfterAuth_of_quiet (hstart.append hquiet) ?_
    rw [attempts_append, hnone, zero_add]
    exact hattempts
  | served hpre hattempts hpost =>
    rw [← append_assoc]
    refine servedAfterAuth_of_accepted hvalid (hstart.append hpre) ?_ hpost
    rw [attempts_append, hnone, zero_add]
    exact hattempts

end Velcrux.Session
