import KafkaAddIn.ResultStrings

namespace KafkaAddIn

open Foundation

variable {this : CKafka} {a : Answers} {paParams : Nat → TVariant} {w w' : World}

def Event.contactsKafka : Event → Bool
  | .readWstr _ => false
  | .signal => false
  | .allocMemory _ _ => false
  | .wildWrite => false
  | _ => true

/-- How far decoding `n` parameters got, as the calls made show it: all were read before
anything else, or nothing else was done in Kafka. `failed` says how the call ended when
decoding did not succeed. -/
inductive Decoding (a : Answers) (paParams : Nat → TVariant) (n : Nat) (failed : Exit → Prop)
    (trace : List Event) : Prop
  | whole {p post} : Decoded a paParams n p → trace = reads n ++ post →
      (∀ i, .readWstr i ∉ post) → Decoding a paParams n failed trace
  | broken {k p e} : k < n → Decoded a paParams k p → paramText a paParams k = .error e →
      (∀ i, .readWstr i ∈ trace ↔ i ≤ k) → (∀ x ∈ trace, x.contactsKafka = false) → failed e →
      Decoding a paParams n failed trace

theorem readWstr_mem_reads {i n : Nat} : .readWstr i ∈ reads n ↔ i < n := by
  simp [reads]

theorem contactsKafka_reads {n : Nat} : ∀ x ∈ reads n, x.contactsKafka = false := by
  intro x hx
  obtain ⟨i, _, rfl⟩ := List.mem_map.mp hx
  rfl

theorem readWstr_notMem_openEvents {type : ClientType} {conf : Handle} {settings : List Setting}
    (i : Nat) : .readWstr i ∉ openEvents a type conf settings := by
  simp [openEvents, settingEvents]

theorem decoding_broken {n k : Nat} {p : Nat → Bytes} {e : Exit} {failed : Exit → Prop}
    (hk : k < n) (hdec : Decoded a paParams k p) (herr : paramText a paParams k = .error e)
    (hfail : failed e) : Decoding a paParams n failed (reads (k + 1)) := by
  refine Decoding.broken hk hdec herr ?_ contactsKafka_reads hfail
  intro i
  rw [readWstr_mem_reads]
  omega

theorem decoding_whole {n : Nat} {p : Nat → Bytes} {failed : Exit → Prop} {post : List Event}
    (hdec : Decoded a paParams n p) (hpost : ∀ i, .readWstr i ∉ post) :
    Decoding a paParams n failed (reads n ++ post) :=
  Decoding.whole hdec rfl hpost

theorem decoding_subscribed {p : Nat → Bytes} {n : Handle} {failed : Exit → Prop}
    {rest : List Event} (hsub : Subscribed a paParams p) (hrest : ∀ i, .readWstr i ∉ rest) :
    Decoding a paParams 5 failed (subscribedEvents a p n ++ rest) := by
  have hpost : ∀ i, .readWstr i ∉ openEvents a .consumer n (consumeSettingsOf p) ++
      (subscribeEvents a (n + 1) (n + 2) (p 1) ++ rest) := by
    intro i
    simp [readWstr_notMem_openEvents, subscribeEvents, hrest]
  simpa [subscribedEvents] using decoding_whole hsub.decoded hpost

theorem decoding_opened {p : Nat → Bytes} {n : Handle} {failed : Exit → Prop}
    {rest : List Event} (hopen : Opened a paParams p) (hrest : ∀ i, .readWstr i ∉ rest) :
    Decoding a paParams 6 failed (enqueueEvents a p n ++ rest) := by
  have hpost : ∀ i, .readWstr i ∉ openEvents a .producer n (produceSettingsOf p) ++
      (.confSetDrMsgCb n :: .signal ::
        .producev (n + 1) (cString 0 (p 1)) (p 4) (p 5) a.producev :: rest) := by
    intro i
    simp [readWstr_notMem_openEvents, hrest]
  simpa [enqueueEvents] using decoding_whole hopen.decoded hpost

theorem consume_decoding {r : Except Exit Bool} (htr : w.trace = [])
    (h : ConsumeExit a paParams w r w') :
    Decoding a paParams 5 (fun e => caught (.error e) = r) w'.trace := by
  cases h with
  | @unreadable k p hk hdec herr =>
    have hbroken : Decoding a paParams 5 (fun e => caught (.error e) = .error .fault)
        (reads (k + 1)) := decoding_broken hk hdec herr rfl
    simpa [htr] using hbroken
  | @undecodable k p e hk hdec herr hne =>
    have hbroken : Decoding a paParams 5 (fun e => caught (.error e) = .ok false)
        (reads (k + 1)) := decoding_broken hk hdec herr (caught_error hne)
    simpa [htr] using hbroken
  | @refused p before s rest hdec _ _ _ =>
    have hpost : ∀ i, .readWstr i ∉ .confNew w.next ::
        (settingEvents a w.next (before ++ [s]) ++ [.confDestroy w.next]) := by
      simp [settingEvents]
    simpa [htr] using decoding_whole hdec hpost
  | @notCreated p hdec _ _ =>
    have hpost : ∀ i, .readWstr i ∉ .confNew w.next ::
        (settingEvents a w.next (consumeSettingsOf p) ++
          [.new .consumer w.next none, .confDestroy w.next]) := by
      simp [settingEvents]
    simpa [htr] using decoding_whole hdec hpost
  | @notSubscribed p hdec hacc hnew _ =>
    have hpost : ∀ i, .readWstr i ∉ openEvents a .consumer w.next (consumeSettingsOf p) ++
        (subscribeEvents a (w.next + 1) (w.next + 2) (p 1) ++
          [.listDestroy (w.next + 2), .destroy (w.next + 1) a.destroyCommits]) := by
      intro i
      simp [readWstr_notMem_openEvents, subscribeEvents]
    simpa [htr, subscribedEvents] using decoding_whole hdec hpost
  | timedOut hsub _ => simpa [htr] using decoding_subscribed hsub (by simp)
  | pollError hsub _ _ => simpa [htr] using decoding_subscribed hsub (by simp)
  | messageLost hsub _ _ => simpa [htr] using decoding_subscribed hsub (by simp [closeEvents])
  | keyLost hsub _ _ _ => simpa [htr] using decoding_subscribed hsub (by simp [closeEvents])
  | done hsub _ _ _ => simpa [htr] using decoding_subscribed hsub (by simp [closeEvents])

theorem produce_decoding {r : Except Exit String} (htr : w.trace = [])
    (h : ProduceExit a paParams w r w') :
    Decoding a paParams 6 (fun e => reported (.error e) = r) w'.trace := by
  cases h with
  | @unreadable k p hk hdec herr =>
    have hbroken : Decoding a paParams 6 (fun e => reported (.error e) = .error .fault)
        (reads (k + 1)) := decoding_broken hk hdec herr rfl
    simpa [htr] using hbroken
  | @undecodable k p e what hk hdec herr hwhat =>
    have hbroken : Decoding a paParams 6
        (fun e => reported (.error e) = .ok ("Exception: " ++ what)) (reads (k + 1)) :=
      decoding_broken hk hdec herr (by simp [reported, hwhat])
    simpa [htr] using hbroken
  | @refused p before s rest hdec _ _ _ =>
    have hpost : ∀ i, .readWstr i ∉ .confNew w.next ::
        (settingEvents a w.next (before ++ [s]) ++ [.confDestroy w.next]) := by
      simp [settingEvents]
    simpa [htr] using decoding_whole hdec hpost
  | @notCreated p hdec _ _ =>
    have hpost : ∀ i, .readWstr i ∉ .confNew w.next ::
        (settingEvents a w.next (produceSettingsOf p) ++
          [.new .producer w.next none, .confDestroy w.next]) := by
      simp [settingEvents]
    simpa [htr] using decoding_whole hdec hpost
  | notEnqueued hopen _ =>
    have hrest : ∀ i, .readWstr i ∉
        if a.producev = respErrQueueFull then [Event.poll (w.next + 1) 1000] else [] := by
      intro i
      split <;> simp
    simpa [htr] using decoding_opened hopen hrest
  | persisted hopen _ =>
    have hrest : ∀ i, .readWstr i ∉ deliverEvents a (w.next + 1) := by
      intro i
      simp only [deliverEvents, reportEvents]
      split
      · split <;> split <;> simp
      · simp
    simpa [htr] using decoding_opened hopen hrest

theorem Decoding.append {n : Nat} {failed : Exit → Prop} {trace es : List Event}
    (h : Decoding a paParams n failed trace) (hes : ∀ x ∈ es, x.ofHost = true) :
    Decoding a paParams n failed (trace ++ es) := by
  have hread : ∀ i, .readWstr i ∉ es := by
    intro i hi
    cases hes _ hi
  have hmem : ∀ i, .readWstr i ∈ trace ++ es ↔ .readWstr i ∈ trace := by
    intro i
    rw [List.mem_append]
    exact or_iff_left (hread i)
  cases h with
  | @whole p post hdec hsplit hpost =>
    have hlater : ∀ i, .readWstr i ∉ post ++ es := by
      intro i hi
      exact (List.mem_append.mp hi).elim (hpost i) (hread i)
    rw [hsplit, List.append_assoc]
    exact Decoding.whole hdec rfl hlater
  | broken hk hdec herr htrace hsilent hf =>
    refine Decoding.broken hk hdec herr (fun i => (hmem i).trans (htrace i)) ?_ hf
    intro x hx
    rcases List.mem_append.mp hx with hx | hx
    · exact hsilent x hx
    · have hhost := hes x hx
      cases x <;> simp_all [Event.ofHost, Event.contactsKafka]

theorem Decoding.mono {n : Nat} {failed failed' : Exit → Prop} {trace : List Event}
    (h : Decoding a paParams n failed trace) (hfail : ∀ e, failed e → failed' e) :
    Decoding a paParams n failed' trace := by
  cases h with
  | whole hdec hsplit hpost => exact Decoding.whole hdec hsplit hpost
  | broken hk hdec herr htrace hsilent hf =>
    exact Decoding.broken hk hdec herr htrace hsilent (hfail _ hf)

/-- Just the parameters of the method are read when all of them could be decoded. -/
theorem readWstr_mem_whole {trace post : List Event} {n : Nat} (hsplit : trace = reads n ++ post)
    (hpost : ∀ i, .readWstr i ∉ post) (i : Nat) : .readWstr i ∈ trace ↔ i < n := by
  rw [hsplit, List.mem_append, readWstr_mem_reads]
  exact or_iff_left (hpost i)

def ReportsSuccess (m : Methods) (r : Except Exit (Bool × TVariant)) : Prop :=
  ∃ val, r = .ok (true, val) ∧
    match m with
    | .eConsume => val.bVal = true
    | _ => ByteExact (ascii "Persisted") val

/-- How a call ends whose parameters could not be decoded: not with a success, and with
an answer unless a string was shorter than its length or the host has no memory. -/
def Undecoded (this : CKafka) (a : Answers) (m : Methods) (r : Except Exit (Bool × TVariant))
    (e : Exit) : Prop :=
  ¬ ReportsSuccess m r ∧
    (e ≠ .fault → this.mIMemory = true → a.alloc = true → ∃ val, r = .ok (true, val))

theorem caught_error_eq_ok {e : Exit} {b : Bool} (h : caught (.error e) = .ok b) : b = false := by
  by_cases he : e = .fault
  · subst e
    cases h
  · rw [caught_error he] at h
    exact (Except.ok.inj h).symm

theorem caught_error_eq_error {e e' : Exit} (h : caught (.error e) = .error e') : e = .fault := by
  by_contra he
  rw [caught_error he] at h
  cases h

theorem reported_error_eq_error {e e' : Exit} (h : reported (.error e) = .error e') :
    e = .fault := by
  cases hw : e.what with
  | none => exact Exit.what_eq_none_iff.mp hw
  | some what => simp [reported, hw] at h

theorem reported_error_ne_persisted (e : Exit) : reported (.error e) ≠ .ok "Persisted" := by
  intro h
  cases hw : e.what with
  | none => simp [reported, hw] at h
  | some what =>
    simp only [reported, hw, Except.ok.injEq] at h
    exact exception_ne_persisted what h

theorem callAsFunc_decoding {lMethodNum : Int} {m : Methods} {pvar : TVariant}
    {r : Except Exit (Bool × TVariant)} (hm : Methods.ofLong lMethodNum = some m)
    (hne : m ≠ .eGetInfo) (htr : w.trace = [])
    (h : CallExit this a lMethodNum pvar paParams w r w') :
    Decoding a paParams (getNParams lMethodNum) (Undecoded this a m r) w'.trace := by
  cases h with
  | unknown hm' => simp [hm] at hm'
  | version hm' _ =>
    rw [hm] at hm'
    cases hm'
    exact absurd rfl hne
  | @sent text t _ _ hm' hprod hstr =>
    rw [hm] at hm'
    cases hm'
    obtain ⟨es, hw, hes⟩ := (uniform_stringToTVariant _ _).world hstr
    rw [congrArg World.trace hw, World.after_trace, show getNParams lMethodNum = 6 by simp [getNParams, hm]]
    refine ((produce_decoding htr hprod).append hes).mono ?_
    intro e hfail
    rcases ends_stringToTVariant hstr with ⟨_, _, hok, _⟩ | ⟨_, hno, herr, _⟩ | ⟨hno, herr, _⟩
    · refine ⟨?_, fun _ _ _ => ⟨_, hok⟩⟩
      intro hsucc
      obtain ⟨val, hval, hexact⟩ := hsucc
      rw [hok] at hval
      cases hval
      have hplain := produceTexts_plain text (produce_text hprod)
      have htext := hplain.2.2 (eq_of_byteExact_returned hplain.1 hexact)
      subst text
      exact reported_error_ne_persisted e hfail
    · refine ⟨?_, fun _ _ halloc => absurd halloc (by simp [hno])⟩
      intro hsucc
      obtain ⟨val, hval, _⟩ := hsucc
      rw [herr] at hval
      cases hval
    · refine ⟨?_, fun _ hset _ => absurd hset (by simp [hno])⟩
      intro hsucc
      obtain ⟨val, hval, _⟩ := hsucc
      rw [herr] at hval
      cases hval
  | notSent hm' hprod =>
    rw [hm] at hm'
    cases hm'
    rw [show getNParams lMethodNum = 6 by simp [getNParams, hm]]
    apply (produce_decoding htr hprod).mono
    intro e hfail
    refine ⟨?_, fun he => absurd (reported_error_eq_error hfail) he⟩
    intro hsucc
    obtain ⟨val, hval, _⟩ := hsucc
    cases hval
  | received hm' hcons =>
    rw [hm] at hm'
    cases hm'
    rw [show getNParams lMethodNum = 5 by simp [getNParams, hm]]
    apply (consume_decoding htr hcons).mono
    intro e hfail
    refine ⟨?_, fun _ _ _ => ⟨_, rfl⟩⟩
    intro hsucc
    obtain ⟨val, hval, htrue⟩ := hsucc
    cases hval
    cases caught_error_eq_ok hfail
    cases htrue
  | notReceived hm' hcons =>
    rw [hm] at hm'
    cases hm'
    rw [show getNParams lMethodNum = 5 by simp [getNParams, hm]]
    apply (consume_decoding htr hcons).mono
    intro e hfail
    refine ⟨?_, fun he => absurd (caught_error_eq_error hfail) he⟩
    intro hsucc
    obtain ⟨val, hval, _⟩ := hsucc
    cases hval

/-- What a call owes its parameters: their strings are read only from entries that are
strings, and an entry of another type makes the call fail, with an answer and without a
call into librdkafka. -/
structure TypedUse (this : CKafka) (a : Answers) (m : Methods) (n : Nat)
    (paParams : Nat → TVariant) (r : Except Exit (Bool × TVariant)) (trace : List Event) :
    Prop where
  reads : ∀ i, .readWstr i ∈ trace → i < n ∧ (paParams i).vt = vtypePwstr
  silent : (∃ i < n, (paParams i).vt ≠ vtypePwstr) → ∀ x ∈ trace, x.contactsKafka = false
  fails : (∃ i < n, (paParams i).vt ≠ vtypePwstr) → ¬ ReportsSuccess m r
  answers : (∃ i < n, (paParams i).vt ≠ vtypePwstr) → this.mIMemory = true → a.alloc = true →
    (∀ i < n, (paParams i).vt = vtypePwstr →
      (paParams i).strLen.toNat ≤ (paParams i).pwstrVal.length) → ∃ val, r = .ok (true, val)

def StringsFirst (a : Answers) (paParams : Nat → TVariant) (n : Nat) : Prop :=
  ∀ i < n, (∀ j < i, ∃ s, paramText a paParams j = .ok s) → (paParams i).vt = vtypePwstr

theorem typedUse_of_decoding {m : Methods} {n : Nat} {r : Except Exit (Bool × TVariant)}
    {trace : List Event} (h : Decoding a paParams n (Undecoded this a m r) trace) :
    TypedUse this a m n paParams r trace ↔ StringsFirst a paParams n := by
  cases h with
  | whole hdec hsplit hpost =>
    have htrace := readWstr_mem_whole hsplit hpost
    constructor
    · intro huse i hi _
      exact (huse.reads i ((htrace i).mpr hi)).2
    · intro hstr
      have hall : ∀ i < n, (paParams i).vt = vtypePwstr := fun i hi =>
        hstr i hi fun j hj => ⟨_, hdec j (by omega)⟩
      have hnone : ¬ ∃ i < n, (paParams i).vt ≠ vtypePwstr := by
        intro hother
        obtain ⟨i, hi, hvt⟩ := hother
        exact hvt (hall i hi)
      refine ⟨?_, fun h => absurd h hnone, fun h => absurd h hnone, fun h => absurd h hnone⟩
      intro i hi
      have hin := (htrace i).mp hi
      exact ⟨hin, hall i hin⟩
  | @broken k p e hk hdec herr htrace hsilent hfail =>
    constructor
    · intro huse i hi hbefore
      -- Entry `k` cannot be decoded, so decoding does not come past it.
      have hik : i ≤ k := by
        by_contra hlt
        obtain ⟨s, hs⟩ := hbefore k (by omega)
        rw [herr] at hs
        cases hs
      exact (huse.reads i ((htrace i).mpr hik)).2
    · intro hstr
      have hall : ∀ i ≤ k, (paParams i).vt = vtypePwstr := fun i hi =>
        hstr i (by omega) fun j hj => ⟨_, hdec j (by omega)⟩
      refine ⟨?_, fun _ => hsilent, fun _ => hfail.1, ?_⟩
      · intro i hi
        have hik := (htrace i).mp hi
        exact ⟨by omega, hall i hik⟩
      · intro _ hset halloc hreadable
        apply hfail.2 ?_ hset halloc
        intro he
        have hlong := hreadable k hk (hall k (Nat.le_refl k))
        rcases paramText_error herr with h | h | ⟨_, hshort⟩
        · rw [he] at h
          cases h
        · rw [he] at h
          cases h
        · omega

/-- The tags are never looked at, so the two methods keep to the strings exactly when
the host passes nothing else where decoding comes to. -/
theorem callAsFunc_typedUse_iff {lMethodNum lSizeArray : Int} {m : Methods} {pvar : TVariant}
    {s : Process} {r : Except Exit (Bool × TVariant)} (hm : Methods.ofLong lMethodNum = some m)
    (hne : m ≠ .eGetInfo)
    (h : Ends (callAsFunc this a lMethodNum pvar paParams lSizeArray) s.world r w') :
    TypedUse this a m (getNParams lMethodNum) paParams r w'.trace ↔
      StringsFirst a paParams (getNParams lMethodNum) :=
  typedUse_of_decoding (callAsFunc_decoding hm hne rfl (ends_callAsFunc rfl h))

theorem callAsFunc_typedUse_strings :
    TypedUse {} {} .eConsume (getNParams 2) (fun _ => { vt := vtypePwstr })
        ((callAsFunc {} {} 2 {} (fun _ => { vt := vtypePwstr }) 5).run ({} : Process).world).1
        ((callAsFunc {} {} 2 {} (fun _ => { vt := vtypePwstr }) 5).run
          ({} : Process).world).2.trace ↔
      StringsFirst {} (fun _ => { vt := vtypePwstr }) (getNParams 2) :=
  callAsFunc_typedUse_iff rfl (by decide) (ends_run _ _)

/-- A producer call in which the host leaves out everything it is told it may. -/
theorem defaults_not_typedUse :
    (∀ i, (getParamDefValue 1 i {}).1 = true) ∧
      ¬ TypedUse { mIMemory := true } {} .eProduce (getNParams 1)
        (fun i => (getParamDefValue 1 i {}).2)
        ((callAsFunc { mIMemory := true } {} 1 {} (fun i => (getParamDefValue 1 i {}).2) 6).run
          ({} : Process).world).1
        ((callAsFunc { mIMemory := true } {} 1 {} (fun i => (getParamDefValue 1 i {}).2) 6).run
          ({} : Process).world).2.trace := by
  refine ⟨fun i => rfl, ?_⟩
  intro h
  have hread := h.reads 0 (by decide)
  exact absurd hread.2 (by decide)

end KafkaAddIn
