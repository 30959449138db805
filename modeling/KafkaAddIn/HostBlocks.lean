import KafkaAddIn.HostTexts
import KafkaAddIn.HostMemory

namespace KafkaAddIn

open Foundation

variable {platform : Platform} {this : CKafka} {a : Answers} {w w' : World}
  {paParams : Nat → TVariant} {c : HostCall} {s t : Process} {o : Outcome} {history : History}
  {text : String}

/-- The size of the block that the host's memory manager gives out. -/
def Event.allocated : Event → List Nat
  | .allocMemory ulCountByte true => [ulCountByte]
  | _ => []

def allocated (trace : List Event) : List Nat := trace.flatMap Event.allocated

/-- The size of the block a name lies in. -/
def nameBlock (p : Option (List ShortWchar)) : List Nat := p.toList.map fun name => name.length * 2

def textBlock (val : TVariant) : List Nat := val.pstrVal.toList.map List.length

/-- The blocks that are the host's from then on. The text of a variant is new where a string
is returned, and otherwise what the host had put there. -/
def Request.hands : Request → Ret → List Nat
  | _, .name p => nameBlock p
  | _, .extension _ p => nameBlock p
  | .getPropVal _ _, .variant true val => textBlock val
  | .callAsFunc lMethodNum _ _ _, .variant true val =>
    if Methods.ofLong lMethodNum = some .eConsume then [] else textBlock val
  | _, _ => []

/-- The sizes of the blocks that a call hands over; a block is known by its call and its size. -/
def handed (e : Entry Process HostCall Outcome) : List Nat :=
  match e.call.op, e.outcome.result with
  | .request request, .ok ret => request.hands ret
  | _, _ => []

theorem allocated_append (t u : List Event) : allocated (t ++ u) = allocated t ++ allocated u :=
  List.flatMap_append

theorem allocated_of_not_ofHost {trace : List Event} (h : ∀ e ∈ trace, e.ofHost = false) :
    allocated trace = [] := by
  apply List.flatMap_eq_nil_iff.mpr
  intro e he
  have hno := h e he
  cases e with
  | allocMemory n ok => cases hno
  | _ => rfl

theorem ofHost_early {e : Event} (h : e.early = true) : e.ofHost = false := by
  cases e <;> first | rfl | cases h

theorem ofHost_subscribedEvents (p : Nat → Bytes) (n : Handle) :
    ∀ e ∈ subscribedEvents a p n, e.ofHost = false := by
  intro e he
  rcases List.mem_append.mp he with he | he
  · rcases List.mem_append.mp he with he | he
    · exact ofHost_early (early_reads 5 e he)
    · rcases List.mem_append.mp he with he | he
      · rcases List.mem_cons.mp he with rfl | he
        · rfl
        · exact ofHost_early (early_settingEvents n _ e he)
      · rw [List.mem_singleton.mp he]
        rfl
  · simp only [subscribeEvents, List.mem_cons, List.not_mem_nil, or_false] at he
    rcases he with rfl | rfl | rfl | rfl <;> rfl

theorem ConsumeExit.ofHost_false {r : Except Exit Bool} (h : ConsumeExit a paParams w r w')
    (htr : w.trace = []) : ∀ e ∈ w'.trace, e.ofHost = false := by
  intro e he
  rcases h.cases with ⟨_, _, es, htrace, hearly⟩ | ⟨_, _, p, htrace⟩ |
    ⟨_, _, p, es, _, htrace, hes⟩ | ⟨record, _, _, p, es, _, htrace, hes⟩ <;>
    rw [htrace, htr, List.nil_append] at he
  · exact ofHost_early (hearly e he)
  · rcases List.mem_append.mp he with he | he
    · exact ofHost_subscribedEvents p _ e he
    · simp only [List.mem_cons, List.not_mem_nil, or_false] at he
      rcases he with rfl | rfl <;> rfl
  · rcases List.mem_append.mp he with he | he
    · exact ofHost_subscribedEvents p _ e he
    · rcases hes with rfl | ⟨rkm, _, rfl⟩
      · rw [List.mem_singleton.mp he]
        rfl
      · simp only [List.mem_cons, List.not_mem_nil, or_false] at he
        rcases he with rfl | rfl | rfl <;> rfl
  · rcases List.mem_append.mp he with he | he
    · rcases List.mem_append.mp he with he | he
      · exact ofHost_subscribedEvents p _ e he
      · simp only [closeEvents, List.mem_cons, List.not_mem_nil, or_false] at he
        rcases he with rfl | rfl | rfl | rfl | rfl <;> rfl
    · rw [hes e he]
      rfl

/-- What a call has allocated is what it hands over, a block at most. -/
structure GivesBlocks (blocks handed : List Nat) : Prop where
  same : blocks = handed
  one : handed.length ≤ 1

theorem givesBlocks_nil : GivesBlocks [] [] := ⟨rfl, Nat.zero_le 1⟩

theorem givesBlocks_stringToTVariant {str : Bytes} {val : TVariant}
    {r : Except Exit (Bool × TVariant)} (hclean : ∀ e ∈ w.trace, e.ofHost = false)
    (h : Ends (stringToTVariant this a str val) w r w') :
    (∃ val', r = .ok (true, val') ∧ GivesBlocks (allocated w'.trace) (textBlock val')) ∨
      (r = .error .fault ∧ allocated w'.trace = []) := by
  have hnone := allocated_of_not_ofHost hclean
  rcases ends_stringToTVariant h with ⟨_, _, rfl, rfl⟩ | ⟨_, _, rfl, rfl⟩ | ⟨_, rfl, rfl⟩
  · refine Or.inl ⟨_, rfl, ?_, Nat.le_refl 1⟩
    rw [World.after_trace, allocated_append, hnone]
    simp [allocated, Event.allocated, textBlock, length_returnedCells]
  · refine Or.inr ⟨rfl, ?_⟩
    rw [World.after_trace, allocated_append, hnone]
    rfl
  · exact Or.inr ⟨rfl, hnone⟩

theorem givesBlocks_nameToHost {r : Except Exit (Option (List ShortWchar))}
    (hset : this.mIMemory = true) (hprint : text.toList.all printable = true)
    (hshort : text.toList.length + 1 < 2 ^ 32) (hclean : ∀ e ∈ w.trace, e.ofHost = false)
    (h : Ends (nameToHost platform this a (wide text)) w r w') :
    ∃ p, r = .ok p ∧ GivesBlocks (allocated w'.trace) (nameBlock p) := by
  have hzero := zero_notMem_of_printable hprint
  have hone : OneUnitEach platform text := oneUnitEach_of_printable hprint
  have hnone := allocated_of_not_ofHost hclean
  cases halloc : a.alloc with
  | true =>
    obtain ⟨rfl, rfl⟩ := h.unique (nameToHost_text hset halloc hzero hshort hone w)
    have hunits : (utf16Units text.toList ++ [0]).length = text.toList.length + 1 := by
      rw [utf16Units_small hone.small]
      simp
    refine ⟨_, rfl, ?_, Nat.le_refl 1⟩
    rw [World.after_trace, allocated_append, hnone]
    simp only [allocated, Event.allocated, List.flatMap_cons, List.flatMap_nil, List.append_nil,
      List.nil_append, nameBlock, Option.toList_some, List.map_cons, List.map_nil, hunits]
  | false =>
    rcases ends_nameToHost h hset with ⟨e, hlen, _⟩ | ⟨n, rfl, hnull⟩
    · rw [← List.append_nil (wide text), wcslen_wide hzero] at hlen
      cases hlen
    · refine ⟨none, hnull halloc, ?_, Nat.zero_le 1⟩
      rw [World.after_trace, allocated_append, hnone, halloc]
      rfl

theorem NameTables.givesBlocks (t : NameTables) {num lAlias : Int}
    {r : Except Exit (Option (List ShortWchar))} (hclean : ∀ e ∈ w.trace, e.ofHost = false)
    (h : Ends (getNameOf platform t.names t.namesRu t.size this a num lAlias) w r w') :
    (∃ p, r = .ok p ∧ GivesBlocks (allocated w'.trace) (nameBlock p)) ∨
      (r = .error .fault ∧ allocated w'.trace = []) := by
  have hnone := allocated_of_not_ofHost hclean
  rcases t.getNameOf_cases h with ⟨rfl, rfl, _⟩ | ⟨rfl, rfl, _⟩ | ⟨hset, i, _, text, hhas, hgot⟩
  · exact Or.inl ⟨none, rfl, hnone, Nat.zero_le 1⟩
  · exact Or.inr ⟨rfl, hnone⟩
  · exact Or.inl (givesBlocks_nameToHost hset (t.text_printable hhas.mem) (t.short _ hhas.mem)
      hclean hgot)

theorem givesBlocks_registerExtensionAs {r : Except Exit (Bool × Option (List ShortWchar))}
    (hclean : ∀ e ∈ w.trace, e.ofHost = false)
    (h : Ends (registerExtensionAs platform this a) w r w') :
    ∃ ok p, r = .ok (ok, p) ∧ GivesBlocks (allocated w'.trace) (nameBlock p) := by
  unfold registerExtensionAs at h
  by_cases hset : this.mIMemory = true
  · rw [if_pos hset] at h
    obtain ⟨r₀, hname, rfl⟩ := ends_bind_pure.mp h
    obtain ⟨p, rfl, hgives⟩ := givesBlocks_nameToHost hset (by decide +kernel) (by decide +kernel)
      hclean hname
    exact ⟨true, p, rfl, hgives⟩
  · rw [if_neg hset] at h
    obtain ⟨rfl, rfl⟩ := ends_pure.mp h
    exact ⟨false, none, rfl, allocated_of_not_ofHost hclean, Nat.zero_le 1⟩

/-- The blocks a request has handed over when it ends. -/
def Request.gives (request : Request) : Except Exit Ret → List Nat
  | .ok ret => request.hands ret
  | .error _ => []

theorem givesBlocks_callAsFunc {lMethodNum lSizeArray : Int} {pvar : TVariant}
    {r : Except Exit (Bool × TVariant)} (htr : w.trace = [])
    (h : Ends (callAsFunc this a lMethodNum pvar paParams lSizeArray) w r w') :
    GivesBlocks (allocated w'.trace)
      ((Request.callAsFunc lMethodNum pvar paParams lSizeArray).gives
        (r.map fun p => .variant p.1 p.2)) := by
  have hclean : ∀ e ∈ w.trace, e.ofHost = false := by simp [htr]
  have hstring : ∀ {m : Methods} {str : Bytes} {u : World}, Methods.ofLong lMethodNum = some m →
      m ≠ .eConsume → (∀ e ∈ u.trace, e.ofHost = false) →
      Ends (stringToTVariant this a str { pvar with vt := vtypePstr }) u r w' →
      GivesBlocks (allocated w'.trace)
        ((Request.callAsFunc lMethodNum pvar paParams lSizeArray).gives
          (r.map fun p => .variant p.1 p.2)) := by
    intro m str u hm hne hu hstr
    rcases givesBlocks_stringToTVariant hu hstr with ⟨val, rfl, hgives⟩ | ⟨rfl, hnone⟩
    · simpa [Request.gives, Request.hands, Except.map, hm, hne] using hgives
    · rw [hnone]
      exact givesBlocks_nil
  cases ends_callAsFunc htr h with
  | unknown hm =>
    rw [htr]
    exact givesBlocks_nil
  | version hm hstr => exact hstring hm nofun hclean hstr
  | sent hm hprod hstr => exact hstring hm nofun (hprod.ofHost_false htr) hstr
  | notSent hm hprod =>
    rw [allocated_of_not_ofHost (hprod.ofHost_false htr)]
    exact givesBlocks_nil
  | received hm hcons =>
    rw [allocated_of_not_ofHost (hcons.ofHost_false htr)]
    simpa [Request.gives, Request.hands, Except.map, hm] using givesBlocks_nil
  | notReceived hm hcons =>
    rw [allocated_of_not_ofHost (hcons.ofHost_false htr)]
    exact givesBlocks_nil

theorem givesBlocks_runRequest {request : Request} {r : Except Exit Ret} (htr : w.trace = [])
    (h : Ends (runRequest platform this a request) w r w') :
    GivesBlocks (allocated w'.trace) (request.gives r) := by
  have hclean : ∀ e ∈ w.trace, e.ofHost = false := by simp [htr]
  cases request with
  | registerExtensionAs =>
    obtain ⟨r₀, hreg, rfl⟩ := ends_bind_pure.mp h
    obtain ⟨ok, p, rfl, hgives⟩ := givesBlocks_registerExtensionAs hclean hreg
    exact hgives
  | getPropName num lAlias =>
    obtain ⟨r₀, hname, rfl⟩ := ends_bind_pure.mp h
    rcases propTables.givesBlocks hclean hname with ⟨p, rfl, hgives⟩ | ⟨rfl, hnone⟩
    · exact hgives
    · rw [hnone]
      exact givesBlocks_nil
  | getMethodName num lAlias =>
    obtain ⟨r₀, hname, rfl⟩ := ends_bind_pure.mp h
    rcases methodTables.givesBlocks hclean hname with ⟨p, rfl, hgives⟩ | ⟨rfl, hnone⟩
    · exact hgives
    · rw [hnone]
      exact givesBlocks_nil
  | getPropVal num pvar =>
    obtain ⟨r₀, hget, rfl⟩ := ends_bind_pure.mp h
    rcases ends_getPropVal hget with ⟨_, rfl, rfl⟩ | ⟨prop, _, hstr⟩
    · rw [htr]
      exact givesBlocks_nil
    · rcases givesBlocks_stringToTVariant hclean hstr with ⟨val, rfl, hgives⟩ | ⟨rfl, hnone⟩
      · exact hgives
      · rw [hnone]
        exact givesBlocks_nil
  | callAsFunc num pvar ps size =>
    obtain ⟨r₀, hcall, rfl⟩ := ends_bind_pure.mp h
    exact givesBlocks_callAsFunc htr hcall
  | findProp name =>
    obtain ⟨r₀, hfind, rfl⟩ := ends_bind_pure.mp h
    obtain ⟨_, rfl⟩ := ends_lift.mp hfind
    rw [htr]
    cases r₀ <;> exact givesBlocks_nil
  | findMethod name =>
    obtain ⟨r₀, hfind, rfl⟩ := ends_bind_pure.mp h
    obtain ⟨_, rfl⟩ := ends_lift.mp hfind
    rw [htr]
    cases r₀ <;> exact givesBlocks_nil
  | getNParams num =>
    obtain ⟨rfl, rfl⟩ := ends_pure.mp h
    rw [htr]
    exact givesBlocks_nil
  | getParamDefValue num param pvar =>
    obtain ⟨rfl, rfl⟩ := ends_pure.mp h
    have hnone : ∀ ok val,
        (Request.getParamDefValue num param pvar).gives (.ok (.variant ok val)) = [] := by
      intro ok val
      cases ok <;> rfl
    rw [htr, hnone]
    exact givesBlocks_nil

theorem givesBlocks_step (h : stepProcess platform c s = some (o, t)) :
    GivesBlocks (allocated o.trace) (handed ⟨s, c, o, t⟩) := by
  obtain ⟨_, ⟨l, ok, obj, hl, _, rfl, _⟩ | ⟨request, this, r, w, hreq, _, hrun, rfl, _⟩⟩ :=
    stepProcess_cases h
  · have hnone : handed ⟨s, c, ⟨.ok (.flag ok), []⟩, t⟩ = [] := by simp [handed, hl]
    rw [hnone]
    exact givesBlocks_nil
  · have hgives := givesBlocks_runRequest rfl hrun
    cases r with
    | ok ret => simpa [handed, hreq, Request.gives] using hgives
    | error e => simpa [handed, hreq, Request.gives] using hgives

/-- The host's memory comes back to the host: in every run the blocks that its manager gives
out are those that the results hand over, in their full sizes and in the calls that asked for
them, one a call at most; a call that fails or ends the process keeps none. -/
theorem blocks_handed_over (h : ProcessRun platform history s) :
    allocated history.trace = history.flatMap handed ∧
      ∀ e ∈ history, allocated e.outcome.trace = handed e ∧ (handed e).length ≤ 1 := by
  have hall : ∀ e ∈ history, allocated e.outcome.trace = handed e ∧ (handed e).length ≤ 1 := by
    refine h.entry ?_
    intro c s o t hs
    have hgives := givesBlocks_step hs
    exact ⟨hgives.same, hgives.one⟩
  refine ⟨?_, hall⟩
  rw [allocated, History.trace, List.flatMap_assoc]
  exact List.flatMap_congr fun e he => (hall e he).1

theorem blocks_handed_over_name :
    let run := execCalls (newObject 0 ++ [⟨0, .request (.getMethodName 0 1), {}⟩])
    allocated (History.trace run.1) = run.1.flatMap handed ∧
      ∀ e ∈ run.1, allocated e.outcome.trace = handed e ∧ (handed e).length ≤ 1 :=
  blocks_handed_over (run_execFrom Run.nil _)

end KafkaAddIn
