import PChop.ExecutionState

/-!
# The composite-prefix codec of load balancing

When the master asks a worker for work (`OFFLOAD`), `Executor::offloadFromStatesVector`
picks a quarter of the worker's non-suspended states (sixteen when there are more than
sixty-four), and `Executor::newCheck2Offload` answers with one message for all of them: the
common prefix `P0` of their branch histories, followed for each history by `-` and the
history with `P0` removed. The worker that receives the message as a `START_PREFIX_TASK`
cuts it at the dashes in `Executor::run` and rebuilds each prefix as `P0` followed by one
suffix.

The main result, `decodeStartPrefixTask_offloadResponse`, is that decoding inverts encoding
for every list of histories the selection can produce. Its content is
`decodeStartPrefixTask_encode`: a message `P ++ -s₁ ++ … ++ -sₖ` decodes to
`P ++ s₁, …, P ++ sₖ` whenever no part holds a dash.
-/

namespace PChop

open ExecutionState

/-! ## Selection -/

/-- The minimum history length of the selected states, computed as the source does: start
from the first state and keep the smaller length. -/
def minHistSize : List ExecutionState → Nat
  | [] => 0
  | s :: ss => ss.foldl (fun m t => min m t.branchHist.length) s.branchHist.length

/-- `Executor::offloadFromStatesVector(std::vector<ExecutionState*>&)`: the selected states,
in the order of `states`, and `minSize`. The source leaves `minSize` uninitialised when it
selects nothing; the model returns `0` there. -/
def offloadFromStatesVector (haltExecution haltFromMaster ready2Offload : Bool)
    (states : List ExecutionState) : List ExecutionState × Nat :=
  if !haltExecution && !haltFromMaster && ready2Offload then
    let offloadVec := states.filter fun s => !s.isSuspended
    if offloadVec.length < 4 then ([], 0)
    else
      let kept :=
        if offloadVec.length > 64 then offloadVec.take 16
        else offloadVec.take (offloadVec.length / 4)
      (kept, minHistSize kept)
  else ([], 0)

private theorem foldl_min_le (ss : List ExecutionState) (m : Nat) :
    ss.foldl (fun m t => min m t.branchHist.length) m ≤ m ∧
      ∀ t ∈ ss, ss.foldl (fun m t => min m t.branchHist.length) m ≤ t.branchHist.length := by
  induction ss generalizing m with
  | nil => simp
  | cons t ss ih =>
    obtain ⟨h₁, h₂⟩ := ih (min m t.branchHist.length)
    refine ⟨h₁.trans (min_le_left _ _), fun u hu => ?_⟩
    rcases List.mem_cons.mp hu with rfl | hu
    · exact h₁.trans (min_le_right _ _)
    · exact h₂ u hu

theorem minHistSize_le {ss : List ExecutionState} {s : ExecutionState} (hs : s ∈ ss) :
    minHistSize ss ≤ s.branchHist.length := by
  cases ss with
  | nil => simp at hs
  | cons t ss =>
    obtain ⟨h₁, h₂⟩ := foldl_min_le ss t.branchHist.length
    rcases List.mem_cons.mp hs with rfl | hs
    · exact h₁
    · exact h₂ s hs

/-- What the selection guarantees the encoder: the selected states are states of the
worker, and `minSize` is at most each selected history's length. -/
theorem offloadFromStatesVector_spec (haltExecution haltFromMaster ready2Offload : Bool)
    (states : List ExecutionState) :
    let r := offloadFromStatesVector haltExecution haltFromMaster ready2Offload states
    (∀ s ∈ r.1, s ∈ states) ∧ ∀ s ∈ r.1, r.2 ≤ s.branchHist.length := by
  unfold offloadFromStatesVector
  split
  · dsimp only
    split
    · simp
    · refine ⟨fun s hs => ?_, fun s hs => minHistSize_le hs⟩
      have hs' : s ∈ states.filter fun s => !s.isSuspended := by
        split at hs <;> exact List.mem_of_mem_take hs
      exact List.mem_of_mem_filter hs'
  · simp

/-! ## Encoding -/

/-- The first loop of `newCheck2Offload`: position `x < minSize` joins the common prefix
while every history has the first history's character there. -/
def commonPref (hs : List (List Char)) (minSize : Nat) : List Char :=
  match hs with
  | [] => []
  | h₀ :: rest =>
    ((List.range minSize).takeWhile fun x => rest.all fun h => charAt h x == charAt h₀ x).map
      (charAt h₀)

/-- The `OFFLOAD_RESP` payload of `newCheck2Offload`: the common prefix, then for each
history a dash and the history past the common prefix. -/
def offloadResponse (hs : List (List Char)) (minSize : Nat) : List Char :=
  let pref := commonPref hs minSize
  pref ++ hs.flatMap fun h => '-' :: h.drop pref.length

/-! ## Decoding -/

/-- The positions of the dashes of a message, counted from `x`: the `dashLoc` vector of the
`START_PREFIX_TASK` handler. -/
def dashLoc : List Char → Nat → List Nat
  | [], _ => []
  | c :: cs, x => if c = '-' then x :: dashLoc cs (x + 1) else dashLoc cs (x + 1)

/-- One prefix of the handler: the characters before the first dash, then those after the
dash at `d` up to the next dash or the end. -/
def recvPrefix (msg : List Char) (d₀ d : Nat) : List Char :=
  msg.take d₀ ++ (msg.drop (d + 1)).takeWhile fun c => c != '-'

/-- The prefixes the `START_PREFIX_TASK` handler of `Executor::run` rebuilds from a
message, one for each dash. -/
def decodeStartPrefixTask (msg : List Char) : List (List Char) :=
  match dashLoc msg 0 with
  | [] => []
  | d₀ :: ds => (d₀ :: ds).map (recvPrefix msg d₀)

/-! ## Round trip -/

theorem dashLoc_append (l₁ l₂ : List Char) (x : Nat) :
    dashLoc (l₁ ++ l₂) x = dashLoc l₁ x ++ dashLoc l₂ (x + l₁.length) := by
  induction l₁ generalizing x with
  | nil => simp [dashLoc]
  | cons c cs ih =>
    have hx : x + (cs.length + 1) = x + 1 + cs.length := by omega
    by_cases hc : c = '-' <;> simp [dashLoc, hc, ih, hx]

theorem dashLoc_eq_nil {l : List Char} (h : '-' ∉ l) (x : Nat) : dashLoc l x = [] := by
  induction l generalizing x with
  | nil => rfl
  | cons c cs ih =>
    simp only [List.mem_cons, not_or] at h
    simp [dashLoc, Ne.symm h.1, ih h.2]

/-- The suffix part of a message: a dash before each part. -/
def dashed (ss : List (List Char)) : List Char := ss.flatMap fun s => '-' :: s

@[simp] theorem dashed_nil : dashed [] = [] := rfl

@[simp] theorem dashed_cons (s : List Char) (ss : List (List Char)) :
    dashed (s :: ss) = '-' :: (s ++ dashed ss) := by
  simp [dashed]

private theorem takeWhile_dashed {s : List Char} (hs : '-' ∉ s) (ss : List (List Char)) :
    (s ++ dashed ss).takeWhile (fun c => c != '-') = s := by
  rw [List.takeWhile_append_of_pos (fun c hc => by simpa using ne_of_mem_of_not_mem hc hs)]
  cases ss <;> simp

/-- Each dash of the suffix part starts the segment of one part: cutting after the `i`-th dash
up to the next one gives back the `i`-th part, whatever comes before the suffix part. -/
theorem segments_dashed {ss : List (List Char)} (h : ∀ s ∈ ss, '-' ∉ s) (pre : List Char) :
    (dashLoc (dashed ss) pre.length).map
      (fun d => ((pre ++ dashed ss).drop (d + 1)).takeWhile fun c => c != '-') = ss := by
  induction ss generalizing pre with
  | nil => rfl
  | cons s ss ih =>
    have hs : '-' ∉ s := h s (List.mem_cons_self _ _)
    have hloc : dashLoc (dashed (s :: ss)) pre.length =
        pre.length :: dashLoc (dashed ss) (pre ++ '-' :: s).length := by
      rw [dashed_cons, dashLoc, if_pos rfl, dashLoc_append, dashLoc_eq_nil hs, List.nil_append]
      simp [Nat.add_assoc, Nat.add_comm 1]
    have happ : pre ++ dashed (s :: ss) = (pre ++ ['-']) ++ (s ++ dashed ss) := by simp
    rw [hloc, List.map_cons, happ, show pre.length + 1 = (pre ++ ['-']).length by simp,
      List.drop_left, takeWhile_dashed hs ss]
    have ih' := ih (fun t ht => h t (List.mem_cons_of_mem _ ht)) (pre ++ '-' :: s)
    rw [show pre ++ '-' :: s ++ dashed ss = (pre ++ ['-']) ++ (s ++ dashed ss) by simp] at ih'
    rw [ih']

/-- A message `P ++ -s₁ ++ … ++ -sₖ` with no dash in its parts decodes to
`P ++ s₁, …, P ++ sₖ`. -/
theorem decodeStartPrefixTask_encode {pref : List Char} {ss : List (List Char)}
    (hpref : '-' ∉ pref) (h : ∀ s ∈ ss, '-' ∉ s) (hne : ss ≠ []) :
    decodeStartPrefixTask (pref ++ dashed ss) = ss.map (pref ++ ·) := by
  obtain ⟨s, ss', rfl⟩ := List.exists_cons_of_ne_nil hne
  have hloc : dashLoc (pref ++ dashed (s :: ss')) 0 =
      pref.length :: dashLoc (dashed ss') (pref ++ '-' :: s).length := by
    rw [dashLoc_append, dashLoc_eq_nil hpref, List.nil_append, Nat.zero_add, dashed_cons,
      dashLoc, if_pos rfl, dashLoc_append, dashLoc_eq_nil (h s (List.mem_cons_self _ _)),
      List.nil_append]
    simp [Nat.add_assoc, Nat.add_comm 1]
  have hseg := segments_dashed h pref
  have hloc' : dashLoc (dashed (s :: ss')) pref.length =
      pref.length :: dashLoc (dashed ss') (pref ++ '-' :: s).length := by
    rw [← hloc, dashLoc_append, dashLoc_eq_nil hpref, List.nil_append, Nat.zero_add]
  unfold decodeStartPrefixTask
  rw [hloc]
  rw [hloc'] at hseg
  conv => rhs; rw [← hseg]
  simp only [List.map_cons, List.map_map, recvPrefix, List.take_left, Function.comp_def]
  exact congrArg _ (List.map_congr_left fun d _ => by simp only [recvPrefix, List.take_left])

theorem map_charAt_range {h : List Char} {m : Nat} (hm : m ≤ h.length) :
    (List.range m).map (charAt h) = h.take m := by
  apply List.ext_getElem (by simp [hm])
  intro i h₁ h₂
  simp only [List.getElem_map, List.getElem_range, List.getElem_take, charAt,
    List.getD_eq_getElem?_getD]
  rw [List.getElem?_eq_getElem (by simp at h₁; omega), Option.getD_some]

/-- `takeWhile` keeps the positions of `range n` up to the first where the test fails. -/
theorem le_length_takeWhile_range {P : Nat → Bool} {n k : Nat} (hk : k ≤ n)
    (h : ∀ x < k, P x = true) : k ≤ ((List.range n).takeWhile P).length := by
  rw [← Nat.add_sub_cancel' hk, List.range_add,
    List.takeWhile_append_of_pos fun x hx => h x (List.mem_range.mp hx), List.length_append,
    List.length_range]
  omega

/-- The common prefix is the first history up to the first position below `minSize` where
another history differs from it. -/
theorem commonPref_cons_spec {h₀ : List Char} (rest : List (List Char)) {minSize : Nat}
    (hm : minSize ≤ h₀.length) : ∃ k ≤ minSize, commonPref (h₀ :: rest) minSize = h₀.take k ∧
      (∀ x < k, ∀ h ∈ rest, charAt h x = charAt h₀ x) ∧
      (k < minSize → ∃ h ∈ rest, charAt h k ≠ charAt h₀ k) := by
  set P : Nat → Bool := fun x => rest.all fun h => charAt h x == charAt h₀ x with hPdef
  have hp : (List.range minSize).takeWhile P <+: List.range minSize := List.takeWhile_prefix _
  have hk : ((List.range minSize).takeWhile P).length ≤ minSize := by simpa using hp.length_le
  have hT : (List.range minSize).takeWhile P =
      List.range ((List.range minSize).takeWhile P).length := by
    conv_lhs => rw [List.prefix_iff_eq_take.mp hp]
    rw [List.take_range, Nat.min_eq_left hk]
  have hP : ∀ x < ((List.range minSize).takeWhile P).length, P x = true := fun x hx =>
    List.mem_takeWhile_imp (by rw [hT]; exact List.mem_range.mpr hx)
  have hPiff : ∀ x, P x = true ↔ ∀ h ∈ rest, charAt h x = charAt h₀ x := fun x => by
    simp only [hPdef, List.all_eq_true, beq_iff_eq]
  refine ⟨_, hk, ?_, fun x hx => (hPiff x).mp (hP x hx), fun hlt => ?_⟩
  · show ((List.range minSize).takeWhile P).map (charAt h₀) = _
    rw [hT, map_charAt_range (hk.trans hm), List.length_range]
  · -- the loop stopped at a position where some history differs
    by_contra hall
    push_neg at hall
    have := le_length_takeWhile_range (P := P) (Nat.succ_le_of_lt hlt) fun x hx => by
      rcases Nat.lt_succ_iff_lt_or_eq.mp hx with hx | rfl
      · exact hP x hx
      · exact (hPiff _).mpr hall
    omega

theorem charAt_eq_of_prefix_of_lt {p h : List Char} (hp : p <+: h) {x : Nat} (hx : x < p.length) :
    charAt h x = charAt p x := by
  obtain ⟨t, rfl⟩ := hp
  simp [charAt, List.getD_eq_getElem?_getD, List.getElem?_append_left hx]

/-- The common prefix is a prefix of every history, when `minSize` is at most every
history's length. -/
theorem commonPref_prefix {hs : List (List Char)} {minSize : Nat}
    (hmin : ∀ h ∈ hs, minSize ≤ h.length) {h : List Char} (hh : h ∈ hs) :
    commonPref hs minSize <+: h := by
  cases hs with
  | nil => simp at hh
  | cons h₀ rest =>
    have hm₀ := hmin h₀ (List.mem_cons_self _ _)
    obtain ⟨k, hk, hpref, hagree, -⟩ := commonPref_cons_spec rest hm₀
    rw [hpref]
    rcases List.mem_cons.mp hh with rfl | hr
    · exact List.take_prefix _ _
    calc h₀.take k = (List.range k).map (charAt h₀) := (map_charAt_range (hk.trans hm₀)).symm
      _ = (List.range k).map (charAt h) := List.map_congr_left fun x hx =>
          (hagree x (List.mem_range.mp hx) h hr).symm
      _ = h.take k := map_charAt_range (hk.trans (hmin h hh))
      _ <+: h := List.take_prefix _ _

/-- The common prefix is the longest one within `minSize`: every prefix of all the histories
that is not longer than `minSize` is a prefix of it. -/
theorem commonPref_longest {hs : List (List Char)} {minSize : Nat}
    (hmin : ∀ h ∈ hs, minSize ≤ h.length) {p : List Char} (hp : ∀ h ∈ hs, p <+: h)
    (hlen : p.length ≤ minSize) (hne : hs ≠ []) : p <+: commonPref hs minSize := by
  obtain ⟨h₀, rest, rfl⟩ := List.exists_cons_of_ne_nil hne
  have hp₀ := hp h₀ (List.mem_cons_self _ _)
  obtain ⟨k, -, hpref, -, hstop⟩ := commonPref_cons_spec rest
    (hmin h₀ (List.mem_cons_self _ _))
  -- the loop cannot stop inside `p`, where every history has `p`'s character
  have hk : p.length ≤ k := by
    by_contra hlt
    obtain ⟨h, hr, hne⟩ := hstop (by omega)
    exact hne (by rw [charAt_eq_of_prefix_of_lt (hp h (List.mem_cons_of_mem _ hr)) (by omega),
      charAt_eq_of_prefix_of_lt hp₀ (by omega)])
  rw [hpref, List.prefix_iff_eq_take.mp hp₀, ← Nat.min_eq_left hk, ← List.take_take]
  exact List.take_prefix _ _

theorem offloadResponse_eq (hs : List (List Char)) (minSize : Nat) :
    offloadResponse hs minSize =
      commonPref hs minSize ++ dashed (hs.map (·.drop (commonPref hs minSize).length)) := by
  simp [offloadResponse, dashed, List.flatMap_map]

/-- Decoding the message `newCheck2Offload` sends gives back, in order, the histories of the
states `offloadFromStatesVector` selects, for every frontier whose histories are over the
alphabet `0123` and every selection that is not empty. -/
theorem decodeStartPrefixTask_offloadResponse {haltExecution haltFromMaster ready2Offload : Bool}
    {states : List ExecutionState}
    (halphabet : ∀ s ∈ states, ∀ c ∈ s.branchHist, c = '0' ∨ c = '1' ∨ c = '2' ∨ c = '3')
    (hsel : (offloadFromStatesVector haltExecution haltFromMaster ready2Offload states).1 ≠ []) :
    let r := offloadFromStatesVector haltExecution haltFromMaster ready2Offload states
    decodeStartPrefixTask (offloadResponse (r.1.map (·.branchHist)) r.2) =
      r.1.map (·.branchHist) := by
  intro r
  obtain ⟨hmem, hmin⟩ :=
    offloadFromStatesVector_spec haltExecution haltFromMaster ready2Offload states
  set hs := r.1.map (·.branchHist)
  have hdash : ∀ h ∈ hs, '-' ∉ h := by
    intro h hh hd
    obtain ⟨s, hs, rfl⟩ := List.mem_map.mp hh
    rcases halphabet s (hmem s hs) '-' hd with h | h | h | h <;> exact absurd h (by decide)
  have hmin' : ∀ h ∈ hs, r.2 ≤ h.length := by
    intro h hh
    obtain ⟨s, hs, rfl⟩ := List.mem_map.mp hh
    exact hmin s hs
  have hne : hs ≠ [] := by simpa [hs] using hsel
  obtain ⟨h₀, hh₀⟩ := List.exists_mem_of_ne_nil hs hne
  have hpref : ∀ h ∈ hs, commonPref hs r.2 <+: h := fun h hh => commonPref_prefix hmin' hh
  rw [offloadResponse_eq, decodeStartPrefixTask_encode
    (fun hd => hdash h₀ hh₀ ((hpref h₀ hh₀).subset hd))
    (fun t ht hd => by
      obtain ⟨h, hh, rfl⟩ := List.mem_map.mp ht
      exact hdash h hh (List.mem_of_mem_drop hd))
    (by simpa using hne), List.map_map]
  conv => rhs; rw [← List.map_id hs]
  exact List.map_congr_left fun h hh => List.prefix_iff_eq_append.mp (hpref h hh)

/-- The round trip at a frontier of eight states, whose first two, with the histories `010`
and `011`, are offloaded under the message `01-0-1`. -/
theorem decodeStartPrefixTask_offloadResponse_eight :
    let states : List ExecutionState :=
      [{ branchHist := ['0', '1', '0'] }, { branchHist := ['0', '1', '1'] },
        { branchHist := ['1'] }, { branchHist := ['1', '0'] }, { branchHist := ['0', '0'] },
        { branchHist := ['2'] }, { branchHist := ['3'] }, { branchHist := ['1', '1', '1'] }]
    (∀ s ∈ states, ∀ c ∈ s.branchHist, c = '0' ∨ c = '1' ∨ c = '2' ∨ c = '3') ∧
      (offloadFromStatesVector false false true states).1 ≠ [] ∧
      offloadResponse ((offloadFromStatesVector false false true states).1.map (·.branchHist))
        (offloadFromStatesVector false false true states).2 = ['0', '1', '-', '0', '-', '1'] ∧
      decodeStartPrefixTask (offloadResponse ((offloadFromStatesVector false false true
        states).1.map (·.branchHist)) (offloadFromStatesVector false false true states).2) =
        (offloadFromStatesVector false false true states).1.map (·.branchHist) :=
  ⟨by decide, List.ne_nil_of_length_pos (by decide), by decide,
    decodeStartPrefixTask_offloadResponse (by decide) (List.ne_nil_of_length_pos (by decide))⟩

end PChop
