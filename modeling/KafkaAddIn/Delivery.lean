import KafkaAddIn.ClientLifetime
import KafkaAddIn.Foundation.CommitLog

namespace KafkaAddIn

open Foundation

variable {platform : Platform} {a : Answers} {paParams : Nat → TVariant} {c : HostCall}
  {s t : Process} {o : Outcome} {history : History} {log : List Record}

/-- The offset a group has committed, and the one that each of its clients has stored. -/
structure Offsets where
  committed : Nat := 0
  stored : Handle → Option Nat := fun _ => none

def Offsets.commit (g : Offsets) (rk : Handle) : Offsets :=
  { g with committed := (g.stored rk).getD g.committed }

/-- The broker's side of a call. A client that is made has stored nothing; a successful
poll stores the offset behind its record. -/
def Offsets.after (g : Offsets) : Event → Offsets
  | .new _ _ (some rk) => { g with stored := Function.update g.stored rk none }
  | .consumerPoll rk (some rkm) =>
    if rkm.err = respErrNoError then
      { g with stored := Function.update g.stored rk (some (g.committed + 1)) }
    else g
  | .consumerClose rk committed => if committed then g.commit rk else g
  | .destroy rk committed => if committed then g.commit rk else g
  | _ => g

def Offsets.run (g : Offsets) (trace : List Event) : Offsets := trace.foldl Offsets.after g

def Event.idle (e : Event) : Prop := ∀ g : Offsets, g.after e = g

theorem Offsets.run_append (g : Offsets) (t u : List Event) :
    g.run (t ++ u) = (g.run t).run u :=
  List.foldl_append

theorem Offsets.run_idle {es : List Event} (h : ∀ e ∈ es, e.idle) (g : Offsets) :
    g.run es = g := by
  induction es with
  | nil => rfl
  | cons e es ih =>
    have hrest := ih fun x hx => h x (List.mem_cons_of_mem _ hx)
    show (g.after e).run es = g
    rw [h e List.mem_cons_self g, hrest]

theorem idle_early {e : Event} (h : e.early = true) : e.idle := by
  intro g
  cases e with
  | new type conf rk =>
    cases rk with
    | none => rfl
    | some rk => cases h
  | _ => first | rfl | cases h

theorem idle_ofHost {e : Event} (h : e.ofHost = true) : e.idle := by
  intro g
  cases e <;> first | rfl | cases h

def Offsets.joined (g : Offsets) (rk : Handle) : Offsets :=
  { g with stored := Function.update g.stored rk none }

theorem run_openEvents (g : Offsets) (type : ClientType) (n : Handle) (settings : List Setting) :
    g.run (openEvents a type n settings) = g.joined (n + 1) := by
  have hset := Offsets.run_idle fun e he =>
    idle_early (early_settingEvents (a := a) n settings e he)
  have hsplit : openEvents a type n settings = [.confNew n] ++ settingEvents a n settings ++
      [.new type n (some (n + 1))] := rfl
  rw [hsplit, Offsets.run_append, Offsets.run_append, hset]
  rfl

theorem run_subscribedEvents (g : Offsets) (p : Nat → Bytes) (n : Handle) :
    g.run (subscribedEvents a p n) = g.joined (n + 1) := by
  have hreads := Offsets.run_idle fun e he => idle_early (early_reads 5 e he)
  rw [subscribedEvents, Offsets.run_append, Offsets.run_append, hreads, run_openEvents]
  rfl

theorem run_enqueueEvents (g : Offsets) (p : Nat → Bytes) (n : Handle) :
    g.run (enqueueEvents a p n) = g.joined (n + 1) := by
  have hreads := Offsets.run_idle fun e he => idle_early (early_reads 6 e he)
  rw [enqueueEvents, Offsets.run_append, Offsets.run_append, hreads, run_openEvents]
  rfl

theorem joined_commit (g : Offsets) (rk : Handle) :
    ((g.joined rk).commit rk).committed = g.committed := by
  simp [Offsets.joined, Offsets.commit]

theorem run_deliverEvents (g : Offsets) (rk : Handle) :
    ((g.joined rk).run (deliverEvents a rk)).committed = g.committed := by
  have hreport : ∀ arrival, ∀ e ∈ reportEvents a rk arrival, e.idle := by
    intro arrival e he
    unfold reportEvents at he
    split at he
    · split at he
      · rw [List.mem_singleton.mp he]
        exact fun g => rfl
      · cases he
    · cases he
  have hsplit : deliverEvents a rk = [.poll rk 0] ++ reportEvents a rk .atPoll ++
      reportEvents a rk .inFlush ++ [.flush rk 1000 (flushErr a), .destroy rk a.destroyCommits] :=
    rfl
  rw [hsplit, Offsets.run_append, Offsets.run_append, Offsets.run_append,
    Offsets.run_idle (hreport _), Offsets.run_idle (hreport _)]
  show (if a.destroyCommits then (g.joined rk).commit rk else g.joined rk).committed = _
  split
  · exact joined_commit g rk
  · rfl

theorem run_closeEvents (g : Offsets) (rk rkm : Handle) (record : Record) :
    ((g.joined rk).run (closeEvents a rk rkm record)).committed =
      if a.closeCommits || a.destroyCommits then g.committed + 1 else g.committed := by
  cases hc : a.closeCommits <;> cases hd : a.destroyCommits <;>
    simp [Offsets.run, closeEvents, Offsets.after, Offsets.commit, Offsets.joined, hc, hd]

def Commits (c : HostCall) : Prop :=
  ∃ paParams record, c.op.calls .eConsume = some paParams ∧ GetsRecord c.answers paParams record ∧
    (c.answers.closeCommits || c.answers.destroyCommits) = true

/-- The committed offset goes from `n` to `n'`: by one when the call commits a record. -/
def MovesOn (c : HostCall) (n n' : Nat) : Prop :=
  (Commits c → n' = n + 1) ∧ (¬ Commits c → n' = n)

theorem movesOn_of_not_commits {n : Nat} (hnot : ¬ Commits c) : MovesOn c n n :=
  ⟨fun h => absurd h hnot, fun _ => rfl⟩

theorem commits_iff (hc : c.op.calls .eConsume = some paParams) :
    Commits c ↔ (∃ record, GetsRecord c.answers paParams record) ∧
      (c.answers.closeCommits || c.answers.destroyCommits) = true := by
  constructor
  · intro hall
    obtain ⟨ps, record, hps, hget, hdone⟩ := hall
    rw [hc] at hps
    cases hps
    exact ⟨⟨record, hget⟩, hdone⟩
  · intro hall
    obtain ⟨⟨record, hget⟩, hdone⟩ := hall
    exact ⟨paParams, record, hc, hget, hdone⟩

/-- A call that does not get as far as polling commits nothing. -/
theorem not_commits_of_not_subscribed (hc : c.op.calls .eConsume = some paParams)
    (hnot : ∀ p, ¬ Subscribed c.answers paParams p) : ¬ Commits c := by
  intro hall
  obtain ⟨⟨record, hget⟩, _⟩ := (commits_iff hc).mp hall
  obtain ⟨p, hsub⟩ := hget.1
  exact hnot p hsub

theorem not_commits_of_no_record (hc : c.op.calls .eConsume = some paParams)
    (hnone : ∀ record, c.answers.poll ≠ some ⟨respErrNoError, record⟩) : ¬ Commits c := by
  intro hall
  obtain ⟨⟨record, hget⟩, _⟩ := (commits_iff hc).mp hall
  exact hnone record hget.2

theorem consume_committed (h : stepProcess platform c s = some (o, t))
    (hc : c.op.calls .eConsume = some paParams) (g : Offsets) :
    MovesOn c g.committed (g.run o.trace).committed := by
  obtain ⟨r, w, hexit, htrace, _⟩ := consume_step h hc
  rw [htrace]
  rcases hexit.cases with ⟨hnot, _, es, hw, hes⟩ | ⟨hnot, _, p, hw⟩ |
    ⟨hnone, _, p, es, _, hw, hes⟩ | ⟨record, hpoll, _, p, es, hsub, hw, hes⟩
  · have hsame : g.run w.trace = g := by
      rw [hw]
      show g.run es = g
      exact Offsets.run_idle (fun e he => idle_early (hes e he)) g
    rw [hsame]
    exact movesOn_of_not_commits (not_commits_of_not_subscribed hc hnot)
  · have hsame : (g.run w.trace).committed = g.committed := by
      rw [hw]
      show (g.run (subscribedEvents c.answers p s.next ++ _)).committed = _
      rw [Offsets.run_append, run_subscribedEvents]
      show (if c.answers.destroyCommits then (g.joined (s.next + 1)).commit (s.next + 1)
        else g.joined (s.next + 1)).committed = _
      split
      · exact joined_commit g _
      · rfl
    rw [hsame]
    exact movesOn_of_not_commits (not_commits_of_not_subscribed hc hnot)
  · have hidle : ∀ e ∈ es, e.idle := by
      rcases hes with rfl | ⟨rkm, hbad, rfl⟩
      · intro e he
        rw [List.mem_singleton.mp he]
        exact fun g => rfl
      · intro e he
        simp only [List.mem_cons, List.not_mem_nil, or_false] at he
        rcases he with rfl | rfl | rfl
        · exact fun g => if_neg hbad
        · exact fun g => rfl
        · exact fun g => rfl
    have hsame : (g.run w.trace).committed = g.committed := by
      rw [hw]
      show (g.run (subscribedEvents c.answers p s.next ++ es)).committed = _
      rw [Offsets.run_append, run_subscribedEvents, Offsets.run_idle hidle]
      rfl
    rw [hsame]
    exact movesOn_of_not_commits (not_commits_of_no_record hc hnone)
  · have hidle : ∀ e ∈ es, e.idle := by
      intro e he
      rw [hes e he]
      exact fun g => rfl
    have hrun : (g.run w.trace).committed = if c.answers.closeCommits || c.answers.destroyCommits
        then g.committed + 1 else g.committed := by
      rw [hw]
      show (g.run (subscribedEvents c.answers p s.next ++ _ ++ es)).committed = _
      rw [Offsets.run_append, Offsets.run_append, run_subscribedEvents, Offsets.run_idle hidle]
      exact run_closeEvents g (s.next + 1) (s.next + 3) record
    have hcommits : Commits c ↔ (c.answers.closeCommits || c.answers.destroyCommits) = true := by
      rw [commits_iff hc]
      exact and_iff_right ⟨record, ⟨p, hsub⟩, hpoll⟩
    rw [hrun, MovesOn, hcommits]
    exact ⟨fun hdone => if_pos hdone, fun hno => if_neg hno⟩

/-- Only a call of `consume` that gets a record moves the group on, and by one. -/
theorem committed_step (h : stepProcess platform c s = some (o, t)) (g : Offsets) :
    MovesOn c g.committed (g.run o.trace).committed := by
  cases hc : c.op.calls .eConsume with
  | some ps => exact consume_committed h hc g
  | none =>
    have hnot : ¬ Commits c := by
      intro hall
      obtain ⟨ps, _, hps, _⟩ := hall
      rw [hc] at hps
      cases hps
    have hsame : (g.run o.trace).committed = g.committed := by
      cases hp : c.op.calls .eProduce with
      | none =>
        obtain ⟨_, hquiet⟩ := quiet_step h hc hp
        rw [Offsets.run_idle fun e he => idle_ofHost (hquiet e he)]
      | some ps =>
        obtain ⟨r, w, es, hexit, htrace, hes, _⟩ := produce_step h hp
        have hhost := Offsets.run_idle fun e he => idle_ofHost (hes e he)
        rw [htrace, Offsets.run_append, hhost]
        rcases hexit.cases with ⟨p, _, _, _, rfl⟩ | ⟨p, _, _, _, rfl⟩ |
          ⟨_, ⟨k, early, rfl, hearly⟩, _⟩
        · show (g.run (enqueueEvents c.answers p s.next ++ _)).committed = _
          rw [Offsets.run_append, run_enqueueEvents]
          exact run_deliverEvents g (s.next + 1)
        · show (g.run (enqueueEvents c.answers p s.next ++ _)).committed = _
          rw [Offsets.run_append, run_enqueueEvents]
          split <;> rfl
        · show (g.run early).committed = _
          rw [Offsets.run_idle fun e he => idle_early (hearly e he)]
    rw [hsame]
    exact movesOn_of_not_commits hnot

/-- The offset below which the group asks for no record again. -/
def groupOffset (history : History) : Nat := (Offsets.run {} history.trace).committed

theorem groupOffset_snoc (history : History) {e : Entry Process HostCall Outcome}
    (h : stepProcess platform e.call e.before = some (e.outcome, e.after)) :
    MovesOn e.call (groupOffset history) (groupOffset (history ++ [e])) := by
  have htrace : (history ++ [e]).trace = history.trace ++ e.outcome.trace := by
    simp [History.trace]
  unfold groupOffset
  rw [htrace, Offsets.run_append]
  exact committed_step h _

/-- The calls of `consume` are all on one topic for one group, and a poll that gives a
record gives the one at the committed offset. -/
structure Served (log : List Record) (topic group : Bytes) (before : History)
    (e : Entry Process HostCall Outcome) : Prop where
  sameGroup : ∀ paParams p, e.call.op.calls .eConsume = some paParams →
    Decoded e.call.answers paParams 5 p → p 1 = topic ∧ p 2 = group
  atOffset : ∀ paParams record, e.call.op.calls .eConsume = some paParams →
    GetsRecord e.call.answers paParams record → log[groupOffset before]? = some record

/-- A call of `consume` that returns true and leaves Message and Key as record `i` has
them. -/
def HandsOver (log : List Record) (i : Nat) (e : Entry Process HostCall Outcome) : Prop :=
  ∃ paParams record, e.call.op.calls .eConsume = some paParams ∧ log[i]? = some record ∧
    e.outcome.answers true ∧ e.after.Carries record

/-- The call gets a record, builds both strings, and still finds the record's bytes in the
message that it has given back. -/
def CopiesRecord (c : HostCall) : Prop :=
  ∃ paParams record, c.op.calls .eConsume = some paParams ∧ GetsRecord c.answers paParams record ∧
    c.answers.buildMessage = true ∧ c.answers.buildKey = true ∧
    c.answers.stalePayload = record.payloadBytes ∧ c.answers.staleKey = record.keyBytes

theorem handsOver_iff {topic group : Bytes} {e : Entry Process HostCall Outcome}
    (h : stepProcess platform e.call e.before = some (e.outcome, e.after))
    (hserved : Served log topic group history e) :
    HandsOver log (groupOffset history) e ↔ CopiesRecord e.call := by
  constructor
  · intro hover
    obtain ⟨ps, record, hc, hlog, hans, hm, hk⟩ := hover
    obtain ⟨r, hleaves, hiff, _⟩ := consume_step_leaves h hc
    have hr := (hiff true).mp hans
    subst r
    rw [hm, hk] at hleaves
    generalize hpayload : record.payloadBytes = m at hleaves
    generalize hkey : record.keyBytes = k at hleaves
    cases hleaves with
    | both hget hbuilt hbuilt' =>
      have hsame := hserved.atOffset ps _ hc hget
      rw [hlog] at hsame
      cases hsame
      exact ⟨ps, record, hc, hget, hbuilt, hbuilt', hpayload.symm, hkey.symm⟩
  · intro hcopies
    obtain ⟨ps, record, hc, hget, hbuilt, hbuilt', hpayload, hkey⟩ := hcopies
    obtain ⟨r, hleaves, hiff, _⟩ := consume_step_leaves h hc
    obtain ⟨hr, hm, hk⟩ := hleaves.unique (ConsumeLeaves.both hget hbuilt hbuilt')
    exact ⟨ps, record, hc, hserved.atOffset ps record hc hget, (hiff true).mpr hr,
      hm.trans hpayload, hk.trans hkey⟩

/-- A call whose record is committed copies that record, unless an earlier call at the same
offset has copied it. -/
def CommitsWhatIsCopied (before : History) (e : Entry Process HostCall Outcome) : Prop :=
  Commits e.call → CopiesRecord e.call ∨
    HandedOver groupOffset (fun _ e => CopiesRecord e.call) before (groupOffset before)

/-- The offset is committed before the record is copied: no record is lost in a run exactly
when each copy of a committed record succeeds. -/
theorem noRecordLost_iff {topic group : Bytes} (h : ProcessRun platform history s)
    (hserved : Throughout (Served log topic group) history) :
    NoLoss groupOffset (HandsOver log) history ↔ Throughout CommitsWhatIsCopied history := by
  have hcopies : Throughout (fun before e => HandsOver log (groupOffset before) e ↔
      CopiesRecord e.call) history := by
    intro before e rest hh
    exact handsOver_iff (h.split hh).2 (hserved before e rest hh)
  have hmoves : ∀ before e rest, history = before ++ e :: rest →
      (groupOffset (before ++ [e]) = groupOffset before + 1 ↔ Commits e.call) := by
    intro before e rest hh
    obtain ⟨hon, hstay⟩ := groupOffset_snoc before (h.split hh).2
    constructor
    · intro hone
      by_contra hnot
      have hsame := hstay hnot
      omega
    · exact hon
  have hsteps : NoLoss groupOffset (fun _ e => CopiesRecord e.call) history ↔
      Throughout (MovesAfterHandOver groupOffset fun _ e => CopiesRecord e.call) history := by
    refine h.noLoss_iff rfl ?_
    intro before s c o t _ hs
    obtain ⟨hon, hstay⟩ := groupOffset_snoc before (e := ⟨s, c, o, t⟩) hs
    by_cases hcommits : Commits c
    · exact Or.inr (hon hcommits)
    · exact Or.inl (hstay hcommits)
  have hcopied : NoLoss groupOffset (HandsOver log) history ↔
      NoLoss groupOffset (fun _ e => CopiesRecord e.call) history := noLoss_congr hcopies
  rw [hcopied, hsteps]
  constructor
  · intro hall before e rest hh hcommits
    exact hall before e rest hh ((hmoves before e rest hh).mpr hcommits)
  · intro hall before e rest hh hone
    exact hall before e rest hh ((hmoves before e rest hh).mp hone)

def oneConsume (buildKey : Bool) : History × Process :=
  execCalls (newObject 0 ++ [consumeCall 0 { hiAnswers with buildKey := buildKey }])

theorem served_oneConsume (buildKey : Bool) :
    Throughout (Served [hiRecord] [116] [117]) (oneConsume buildKey).1 := by
  have hlen : (oneConsume buildKey).1.length = 3 := by cases buildKey <;> decide +kernel
  have hcalls : (oneConsume buildKey).1.map Entry.call =
      newObject 0 ++ [consumeCall 0 { hiAnswers with buildKey := buildKey }] :=
    map_call_execFrom hlen
  have hoffset : groupOffset ((oneConsume buildKey).1.take 2) = 0 := by
    cases buildKey <;> decide +kernel
  refine throughout_of_take ?_
  intro i hi
  have hcall : (newObject 0 ++ [consumeCall 0 { hiAnswers with buildKey := buildKey }])[i]? =
      some (oneConsume buildKey).1[i].call := by
    rw [← hcalls, List.getElem?_map, List.getElem?_eq_getElem hi]
    rfl
  generalize (oneConsume buildKey).1[i] = e at hcall
  have hcases : i = 0 ∨ i = 1 ∨ i = 2 := by omega
  rcases hcases with rfl | rfl | rfl
  · have hnone : e.call.op.calls .eConsume = none := by
      rw [← Option.some.inj hcall]
      rfl
    exact ⟨by simp [hnone], by simp [hnone]⟩
  · have hnone : e.call.op.calls .eConsume = none := by
      rw [← Option.some.inj hcall]
      rfl
    exact ⟨by simp [hnone], by simp [hnone]⟩
  · have hconsume := Option.some.inj hcall
    refine ⟨?_, ?_⟩
    · intro ps p hc hdec
      rw [← hconsume] at hc hdec
      cases hc
      exact ⟨(Except.ok.inj (hdec 1 (by decide))).symm, (Except.ok.inj (hdec 2 (by decide))).symm⟩
    · intro ps record hc hget
      rw [← hconsume] at hget
      have hrecord : hiRecord = record := congrArg Polled.record (Option.some.inj hget.2)
      rw [hoffset, hrecord]
      rfl

theorem noLoss_oneRecord :
    NoLoss groupOffset (HandsOver [hiRecord]) (oneConsume true).1 ↔
      Throughout CommitsWhatIsCopied (oneConsume true).1 :=
  noRecordLost_iff (run_execFrom Run.nil _) (served_oneConsume true)

/-- The memory runs out between the two strings: the call returns false, and the group does
not ask for the record again. -/
theorem keyLost_noLoss_fails :
    ProcessRun .other (oneConsume false).1 (oneConsume false).2 ∧
      Throughout (Served [hiRecord] [116] [117]) (oneConsume false).1 ∧
      ¬ NoLoss groupOffset (HandsOver [hiRecord]) (oneConsume false).1 := by
  refine ⟨run_execFrom Run.nil _, served_oneConsume false, ?_⟩
  intro h
  have hoffset : groupOffset (oneConsume false).1 = 1 := by decide +kernel
  obtain ⟨before, e, rest, hh, hpos, ps, record, _, hlog, _, _, hkey⟩ := h 0 (by omega)
  have hmem : e ∈ (oneConsume false).1 := hh ▸ List.mem_append_right _ List.mem_cons_self
  have hempty : ∀ e ∈ (oneConsume false).1, e.after.gKey = [] := by decide +kernel
  rw [hempty e hmem] at hkey
  cases hlog
  exact absurd hkey (by decide)

end KafkaAddIn
