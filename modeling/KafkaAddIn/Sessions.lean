import KafkaAddIn.ClientLifetime
import KafkaAddIn.Foundation.Typestate

namespace KafkaAddIn

open Foundation

variable {platform : Platform} {a : Answers} {paParams : Nat → TVariant} {c : HostCall}
  {s t : Process} {o : Outcome} {history : History} {p : Nat → Bytes}

/-- How far a client has come. -/
inductive ClientState
  | unmade
  | made (type : ClientType)
  /-- Its events come in through `rd_kafka_consumer_poll`. -/
  | redirected
  | subscribed
  | notSubscribed
  /-- It has a record. -/
  | holding
  /-- It has polled and has no record. -/
  | idle
  | closed
  /-- Its record is enqueued. -/
  | sending
  /-- Reports are served to it. -/
  | serving
  | reported
  | flushed
  | queueFull
  /-- Its record could not be enqueued. -/
  | stuck
  | destroyed
  deriving DecidableEq, Repr

def ClientState.next : ClientState → Event → Option ClientState
  | .unmade, .new type _ (some _) => some (.made type)
  | .made .consumer, .pollSetConsumer _ => some .redirected
  | .redirected, .subscribe _ _ err =>
    some (if err = respErrNoError then .subscribed else .notSubscribed)
  | .notSubscribed, .destroy _ _ => some .destroyed
  | .subscribed, .consumerPoll _ none => some .idle
  | .subscribed, .consumerPoll _ (some rkm) =>
    some (if rkm.err = respErrNoError then .holding else .idle)
  | .holding, .consumerClose _ _ => some .closed
  | .closed, .destroy _ _ => some .destroyed
  | .made .producer, .producev _ _ _ _ err =>
    some (if err = respErrNoError then .sending
      else if err = respErrQueueFull then .queueFull else .stuck)
  | .queueFull, .poll _ _ => some .stuck
  | .sending, .poll _ _ => some .serving
  | .serving, .deliveryReport _ _ => some .reported
  | .serving, .flush _ _ _ => some .flushed
  | .reported, .flush _ _ _ => some .flushed
  | .flushed, .destroy _ _ => some .destroyed
  | _, _ => none

def clientSessions : Typestate Event Handle ClientState where
  subject
    | .new _ _ rk => rk
    | .pollSetConsumer rk => some rk
    | .subscribe rk _ _ => some rk
    | .consumerPoll rk _ => some rk
    | .consumerClose rk _ => some rk
    | .destroy rk _ => some rk
    | .producev rk _ _ _ _ => some rk
    | .deliveryReport rk _ => some rk
    | .poll rk _ => some rk
    | .flush rk _ _ => some rk
    | _ => none
  start := .unmade
  next := ClientState.next

/-- Where a call may leave its client. -/
def ClientState.atRest : ClientState → Bool
  | .unmade => true
  | .idle => true
  | .stuck => true
  | .destroyed => true
  | _ => false

theorem apart_early {e : Event} (h : e.early = true) : clientSessions.subject e = none := by
  cases e with
  | new type conf rk =>
    cases rk with
    | none => rfl
    | some rk => cases h
  | _ => first | rfl | cases h

theorem apart_ofHost {e : Event} (h : e.ofHost = true) : clientSessions.subject e = none := by
  cases e <;> first | rfl | cases h

theorem leads_open (k : Nat) (type : ClientType) (n : Handle) (settings : List Setting) :
    clientSessions.Leads (n + 1) .unmade (reads k ++ openEvents a type n settings) (.made type) := by
  have hearly : ∀ e ∈ reads k ++ .confNew n :: settingEvents a n settings,
      clientSessions.subject e = none := by
    intro e he
    rcases List.mem_append.mp he with he | he
    · exact apart_early (early_reads k e he)
    · rcases List.mem_cons.mp he with rfl | he
      · rfl
      · exact apart_early (early_settingEvents n settings e he)
  have hmade : clientSessions.Leads (n + 1) .unmade [.new type n (some (n + 1))] (.made type) := Typestate.leads_one rfl rfl
  have hall := (Typestate.leads_apart hearly).append hmade
  simpa [openEvents] using hall

theorem leads_subscribed (p : Nat → Bytes) (n : Handle) :
    clientSessions.Leads (n + 1) .unmade (subscribedEvents a p n)
      (if a.subscribe = respErrNoError then .subscribed else .notSubscribed) := by
  have hpoll : clientSessions.Leads (n + 1) (.made .consumer) [.pollSetConsumer (n + 1)] .redirected :=
    Typestate.leads_one rfl rfl
  have hlist : clientSessions.Leads (n + 1) .redirected [.listNew (n + 2), .listAdd (n + 2) (cString 0 (p 1))]
      .redirected := Typestate.leads_apart (by simp [clientSessions])
  have hsub : clientSessions.Leads (n + 1) .redirected [.subscribe (n + 1) (n + 2) a.subscribe]
      (if a.subscribe = respErrNoError then .subscribed else .notSubscribed) := Typestate.leads_one rfl rfl
  have hopen := leads_open (a := a) 5 .consumer n (consumeSettingsOf p)
  exact hopen.append (hpoll.append (hlist.append hsub))

theorem leads_close (rk rkm : Handle) (record : Record) :
    clientSessions.Leads rk .subscribed (closeEvents a rk rkm record) .destroyed := by
  have hpoll : clientSessions.Leads rk .subscribed [.consumerPoll rk (some ⟨rkm, respErrNoError, record⟩)]
      .holding := Typestate.leads_one rfl rfl
  have hmessage : clientSessions.Leads rk .holding [.messageRead rkm, .messageDestroy rkm] .holding :=
    Typestate.leads_apart (by simp [clientSessions])
  have hclose : clientSessions.Leads rk .holding [.consumerClose rk a.closeCommits] .closed := Typestate.leads_one rfl rfl
  have hend : clientSessions.Leads rk .closed [.destroy rk a.destroyCommits] .destroyed := Typestate.leads_one rfl rfl
  exact hpoll.append (hmessage.append (hclose.append hend))

theorem leads_enqueue (p : Nat → Bytes) (n : Handle) :
    clientSessions.Leads (n + 1) .unmade (enqueueEvents a p n)
      (if a.producev = respErrNoError then .sending
        else if a.producev = respErrQueueFull then .queueFull else .stuck) := by
  have hset : clientSessions.Leads (n + 1) (.made .producer) [.confSetDrMsgCb n, .signal] (.made .producer) :=
    Typestate.leads_apart (by simp [clientSessions])
  have hput : clientSessions.Leads (n + 1) (.made .producer)
      [.producev (n + 1) (cString 0 (p 1)) (p 4) (p 5) a.producev]
      (if a.producev = respErrNoError then .sending
        else if a.producev = respErrQueueFull then .queueFull else .stuck) := Typestate.leads_one rfl rfl
  have hopen := leads_open (a := a) 6 .producer n (produceSettingsOf p)
  exact hopen.append (hset.append hput)

theorem leads_deliver (rk : Handle) : clientSessions.Leads rk .sending (deliverEvents a rk) .destroyed := by
  have hpoll : clientSessions.Leads rk .sending [.poll rk 0] .serving := Typestate.leads_one rfl rfl
  have hend : clientSessions.Leads rk .flushed [.destroy rk a.destroyCommits] .destroyed := Typestate.leads_one rfl rfl
  have hflush : clientSessions.Leads rk .serving [.flush rk 1000 (flushErr a)] .flushed := Typestate.leads_one rfl rfl
  have hflush' : clientSessions.Leads rk .reported [.flush rk 1000 (flushErr a)] .flushed := Typestate.leads_one rfl rfl
  have hreport : ∀ err, clientSessions.Leads rk .serving [.deliveryReport rk err] .reported :=
    fun _ => Typestate.leads_one rfl rfl
  cases hd : a.delivery with
  | none =>
    have hall := hpoll.append (hflush.append hend)
    simpa [deliverEvents, reportEvents, hd] using hall
  | some delivery =>
    obtain ⟨arrival, err⟩ := delivery
    have hall := hpoll.append ((hreport err).append (hflush'.append hend))
    cases arrival <;> simpa [deliverEvents, reportEvents, hd] using hall

theorem leads_received {record : Record} {es : List Event} (hsub : a.subscribe = respErrNoError)
    (p : Nat → Bytes) (n : Handle) (hes : ∀ e ∈ es, e = .messageRead (n + 3)) :
    clientSessions.Leads (n + 1) .unmade
      (subscribedEvents a p n ++ closeEvents a (n + 1) (n + 3) record ++ es) .destroyed := by
  have hopen := leads_subscribed (a := a) p n
  rw [if_pos hsub] at hopen
  have hread : ∀ e ∈ es, clientSessions.subject e = none := by
    intro e he
    rw [hes e he]
    rfl
  exact (hopen.append (leads_close (n + 1) (n + 3) record)).append (Typestate.leads_apart hread)

/-- What a call does with clients: it makes one at most, and leaves it at rest. -/
def AtMostOne (n n' : Handle) (trace : List Event) : Prop :=
  clientSessions.OneSession (fun last => last.atRest = true) n n' trace

theorem atMostOne_of {n n' : Handle} {es : List Event} {last : ClientState} (hroom : n + 2 ≤ n')
    (hrest : last.atRest = true) (h : clientSessions.Leads (n + 1) .unmade es last) :
    AtMostOne n n' es :=
  Typestate.OneSession.of (Nat.le_succ n) hroom hrest h

theorem session_consume (h : stepProcess platform c s = some (o, t))
    (hc : c.op.calls .eConsume = some paParams) : AtMostOne s.next t.next o.trace := by
  obtain ⟨r, w, hexit, htrace, rfl, _⟩ := consume_step h hc
  rw [htrace]
  change AtMostOne s.next w.next w.trace
  cases hexit with
  | unreadable _ _ _ =>
    exact Typestate.OneSession.without (Nat.le_refl _) fun e he => apart_early (early_reads _ e he)
  | undecodable _ _ _ _ =>
    exact Typestate.OneSession.without (Nat.le_refl _) fun e he => apart_early (early_reads _ e he)
  | refused _ _ _ _ =>
    exact Typestate.OneSession.without (Nat.le_succ _) fun e he => apart_early (early_refused 5 _ _ e he)
  | notCreated _ _ _ =>
    exact Typestate.OneSession.without (Nat.le_succ _) fun e he =>
      apart_early (early_notCreated 5 _ _ _ e he)
  | @notSubscribed p _ _ _ hbad =>
    have hsub := leads_subscribed (a := c.answers) p s.next
    rw [if_neg hbad] at hsub
    have hlist : clientSessions.Leads (s.next + 1) .notSubscribed [.listDestroy (s.next + 2)] .notSubscribed :=
      Typestate.leads_apart (by simp [clientSessions])
    have hend : clientSessions.Leads (s.next + 1) .notSubscribed
        [.destroy (s.next + 1) c.answers.destroyCommits] .destroyed := Typestate.leads_one rfl rfl
    exact atMostOne_of (Nat.le_succ _) rfl (hsub.append (hlist.append hend))
  | @timedOut p hsubscribed _ =>
    have hsub := leads_subscribed (a := c.answers) p s.next
    rw [if_pos hsubscribed.subscribed] at hsub
    have hpoll : clientSessions.Leads (s.next + 1) .subscribed [.consumerPoll (s.next + 1) none] .idle :=
      Typestate.leads_one rfl rfl
    exact atMostOne_of (Nat.le_succ _) rfl (hsub.append hpoll)
  | @pollError p polled hsubscribed _ hbad =>
    have hsub := leads_subscribed (a := c.answers) p s.next
    rw [if_pos hsubscribed.subscribed] at hsub
    have hidle : ClientState.subscribed.next
        (.consumerPoll (s.next + 1) (some ⟨s.next + 3, polled.err, polled.record⟩)) =
          some .idle := by
      simp [ClientState.next, hbad]
    have hpoll : clientSessions.Leads (s.next + 1) .subscribed
        [.consumerPoll (s.next + 1) (some ⟨s.next + 3, polled.err, polled.record⟩)] .idle :=
      Typestate.leads_one rfl hidle
    have hmessage : clientSessions.Leads (s.next + 1) .idle
        [.messageRead (s.next + 3), .messageDestroy (s.next + 3)] .idle :=
      Typestate.leads_apart (by simp [clientSessions])
    exact atMostOne_of (Nat.le_add_right _ 2) rfl (hsub.append (hpoll.append hmessage))
  | messageLost hsubscribed _ _ =>
    exact atMostOne_of (Nat.le_add_right _ 2) rfl
      (leads_received hsubscribed.subscribed _ s.next (by simp [Process.world]))
  | keyLost hsubscribed _ _ _ =>
    exact atMostOne_of (Nat.le_add_right _ 2) rfl
      (leads_received hsubscribed.subscribed _ s.next (by simp [Process.world]))
  | done hsubscribed _ _ _ =>
    exact atMostOne_of (Nat.le_add_right _ 2) rfl
      (leads_received hsubscribed.subscribed _ s.next (by simp [Process.world]))

theorem session_produce (h : stepProcess platform c s = some (o, t))
    (hc : c.op.calls .eProduce = some paParams) : AtMostOne s.next t.next o.trace := by
  obtain ⟨r, w, es, hexit, htrace, hes, hnext, _⟩ := produce_step h hc
  have hhost : ∀ x : ClientState, clientSessions.Leads (s.next + 1) x es x := fun _ =>
    Typestate.leads_apart fun e he => apart_ofHost (hes e he)
  rw [htrace, hnext]
  rcases hexit.cases with ⟨p, _, henq, _, rfl⟩ | ⟨p, _, hbad, _, rfl⟩ |
    ⟨_, ⟨k, early, rfl, hearly⟩, _⟩
  · have hput := leads_enqueue (a := c.answers) p s.next
    rw [if_pos henq] at hput
    have hall := (hput.append (leads_deliver (a := c.answers) (s.next + 1))).append (hhost .destroyed)
    exact atMostOne_of (Nat.le_refl _) rfl hall
  · have hput := leads_enqueue (a := c.answers) p s.next
    rw [if_neg hbad] at hput
    by_cases hfull : c.answers.producev = respErrQueueFull
    · have hpoll : clientSessions.Leads (s.next + 1) .queueFull [.poll (s.next + 1) 1000] .stuck :=
        Typestate.leads_one rfl rfl
      rw [if_pos hfull] at hput
      have hall := (hput.append hpoll).append (hhost .stuck)
      exact atMostOne_of (Nat.le_refl _) rfl (by simpa [Process.world, hfull] using hall)
    · rw [if_neg hfull] at hput
      have hall := hput.append (hhost .stuck)
      exact atMostOne_of (Nat.le_refl _) rfl (by simpa [Process.world, hfull] using hall)
  · refine Typestate.OneSession.without (Nat.le_add_right _ _) ?_
    intro e he
    rcases List.mem_append.mp he with he | he
    · exact apart_early (hearly e he)
    · exact apart_ofHost (hes e he)

theorem session_step (h : stepProcess platform c s = some (o, t)) :
    AtMostOne s.next t.next o.trace := by
  cases hc : c.op.calls .eConsume with
  | some ps => exact session_consume h hc
  | none =>
    cases hp : c.op.calls .eProduce with
    | some ps => exact session_produce h hp
    | none =>
      obtain ⟨hnext, hquiet⟩ := quiet_step h hc hp
      exact Typestate.OneSession.without (Nat.le_of_eq hnext.symm) fun e he => apart_ofHost (hquiet e he)

/-- The state exists and is one in which a call may leave its client. -/
def Rests (state : Option ClientState) : Prop := ∃ last, state = some last ∧ last.atRest = true

/-- Whatever the host calls and the outside answers: each client goes through one session in
the order that librdkafka asks for, a consumer's or a producer's, and nothing is called on
it out of turn, before it is made or after it is destroyed. Between two calls of the host it
is destroyed, or left behind after a poll without a record or a record not enqueued. -/
theorem sessions_rest (h : ProcessRun platform history s) (rk : Handle) :
    Rests (clientSessions.state history.trace rk) := by
  rcases Run.sessions (R := fun _ (last : ClientState) => last.atRest = true) Process.next Outcome.trace
    (fun _ _ _ _ => session_step) h rk with hnil | ⟨_, _, _, _, last, hstate, hrest⟩
  · exact ⟨.unmade, Typestate.state_of_about_nil hnil, rfl⟩
  · exact ⟨last, hstate, hrest⟩

theorem sessions_rest_oneRecord :
    let run := execCalls (newObject 0 ++ [consumeCall 0 hiAnswers])
    Rests (clientSessions.state (History.trace run.1) 1) :=
  sessions_rest (run_execFrom Run.nil _) 1

example : clientSessions.state
    (History.trace (execCalls (newObject 0 ++ [consumeCall 0 hiAnswers])).1) 1 =
      some .destroyed := by
  decide +kernel

end KafkaAddIn
