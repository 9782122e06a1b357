import PChop.Executor.Run

/-!
# The error-location table

`terminateStateOnError` removes the line of an error from the entry of its file's base name in
the table of error locations, removes an entry left without lines, and halts the node when the
table becomes empty (`haltOnError`). Over any sequence of errors whose reasons are in
`ExitOnErrorType`, whatever their order, their repetitions and the errors already reported at
the same instruction, the table is a function of the locations hit (`tableAfter`): an entry is
gone once its file and all its lines have been hit, and otherwise keeps the lines not hit, so
the locations of the table are those of the first table not yet hit (`locations_tableAfter`).
The node halts, with `haltFromMaster` on the master and one `BUG_FOUND` from a worker, at the
error after which every location and every file of the first table has been hit
(`errorRun_halts_when_covered`). An entry without lines is removed only by an error in its file,
so it holds the halt back after every location has been hit (`empty_entry_blocks_halt`).
-/

namespace PChop

open Executor (baseName eraseErrorLocation)

/-! ## The table as a function of the hits -/

/-- An entry of the table after the errors at `hits`: gone once its file has been hit and
every one of its lines, otherwise with the lines not hit. -/
def entryAfter (hits : List (String × Nat)) (entry : String × List Nat) :
    Option (String × List Nat) :=
  if (∃ p ∈ hits, p.1 = entry.1) ∧ ∀ l ∈ entry.2, (entry.1, l) ∈ hits then none
  else some (entry.1, entry.2.filter fun l => (entry.1, l) ∉ hits)

/-- The table after the errors at `hits`, from the table `T0`. -/
def tableAfter (T0 : List (String × List Nat)) (hits : List (String × Nat)) :
    List (String × List Nat) :=
  T0.filterMap (entryAfter hits)

/-- The locations of a table: each file with each of its lines. -/
def locations (T : List (String × List Nat)) : List (String × Nat) :=
  T.flatMap fun entry => entry.2.map (entry.1, ·)

/-- The errors at `hits` have hit every location of the table and every file of it. -/
def Covered (T : List (String × List Nat)) (hits : List (String × Nat)) : Prop :=
  (∀ p ∈ locations T, p ∈ hits) ∧ ∀ entry ∈ T, ∃ p ∈ hits, p.1 = entry.1

instance (T : List (String × List Nat)) (hits : List (String × Nat)) :
    Decidable (Covered T hits) :=
  inferInstanceAs (Decidable (_ ∧ _))

/-- The location an error reports to the table: its file's base name and its line, none when
the location information is missing. -/
def errorHits (file : String) (line : Nat) : List (String × Nat) :=
  if file = "" then [] else [(baseName file, line)]

theorem entryAfter_eq_none {hits : List (String × Nat)} {entry : String × List Nat} :
    entryAfter hits entry = none ↔
      (∃ p ∈ hits, p.1 = entry.1) ∧ ∀ l ∈ entry.2, (entry.1, l) ∈ hits := by
  by_cases h : (∃ p ∈ hits, p.1 = entry.1) ∧ ∀ l ∈ entry.2, (entry.1, l) ∈ hits
  · rw [entryAfter, if_pos h]; exact iff_of_true rfl h
  · rw [entryAfter, if_neg h]; exact iff_of_false (by simp) h

theorem tableAfter_nil (T0 : List (String × List Nat)) : tableAfter T0 [] = T0 :=
  (List.filterMap_congr fun entry _ => by simp [entryAfter]).trans (List.filterMap_some T0)

theorem not_covered_nil {T0 : List (String × List Nat)} (h : T0 ≠ []) : ¬ Covered T0 [] := by
  obtain ⟨entry, he⟩ := List.exists_mem_of_ne_nil T0 h
  intro hc
  obtain ⟨p, hp, -⟩ := hc.2 entry he
  cases hp

/-- The table is empty exactly when every location and every file of the first table has been
hit. -/
theorem tableAfter_eq_nil {T0 : List (String × List Nat)} {hits : List (String × Nat)} :
    tableAfter T0 hits = [] ↔ Covered T0 hits := by
  simp only [tableAfter, List.filterMap_eq_nil_iff, entryAfter_eq_none, Covered, locations,
    List.mem_flatMap, List.mem_map]
  constructor
  · intro h
    refine ⟨?_, fun entry he => (h entry he).1⟩
    rintro _ ⟨entry, he, l, hl, rfl⟩
    exact (h entry he).2 l hl
  · exact fun h entry he => ⟨h.2 entry he, fun l hl => h.1 _ ⟨entry, he, l, hl, rfl⟩⟩

theorem Covered.append {T0 : List (String × List Nat)} {hits : List (String × Nat)}
    (h : Covered T0 hits) (more : List (String × Nat)) : Covered T0 (hits ++ more) :=
  ⟨fun p hp => List.mem_append_left _ (h.1 p hp),
    fun entry he => let ⟨p, hp, hpe⟩ := h.2 entry he; ⟨p, List.mem_append_left _ hp, hpe⟩⟩

/-- The files of the table are among those of the first table. -/
theorem tableAfter_keys (hits : List (String × Nat)) : ∀ T0 : List (String × List Nat),
    List.Sublist ((tableAfter T0 hits).map (·.1)) (T0.map (·.1))
  | [] => List.Sublist.slnil
  | entry :: T => by
    unfold tableAfter
    rw [List.filterMap_cons]
    by_cases h : (∃ p ∈ hits, p.1 = entry.1) ∧ ∀ l ∈ entry.2, (entry.1, l) ∈ hits
    · rw [entryAfter, if_pos h]; exact (tableAfter_keys hits T).cons _
    · rw [entryAfter, if_neg h]; exact (tableAfter_keys hits T).cons₂ _

/-- The locations of the table are those of the first table not yet hit. -/
theorem locations_tableAfter (hits : List (String × Nat)) : ∀ T0 : List (String × List Nat),
    locations (tableAfter T0 hits) = (locations T0).filter (· ∉ hits)
  | [] => rfl
  | ⟨f, L⟩ :: T => by
    have ih := locations_tableAfter hits T
    unfold tableAfter locations at *
    rw [List.filterMap_cons, List.flatMap_cons, List.filter_append, ← ih]
    by_cases h : (∃ p ∈ hits, p.1 = f) ∧ ∀ l ∈ L, (f, l) ∈ hits
    · rw [entryAfter, if_pos h, List.filter_eq_nil_iff.mpr (by simpa using h.2)]
      rfl
    · rw [entryAfter, if_neg h]
      simp [List.filter_map, Function.comp_def]

/-! ## One error -/

/-- What `eraseErrorLocation` does to one entry, when no two entries share a file. -/
def eraseEntry (name : String) (line : Nat) (entry : String × List Nat) :
    Option (String × List Nat) :=
  if entry.1 = name then
    if (entry.2.filter (· != line)).isEmpty then none
    else some (entry.1, entry.2.filter (· != line))
  else some entry

theorem eraseErrorLocation_eq_filterMap {T : List (String × List Nat)}
    (hT : (T.map (·.1)).Nodup) (file : String) (line : Nat) :
    eraseErrorLocation T file line = T.filterMap (eraseEntry (baseName file) line) := by
  unfold eraseErrorLocation
  cases hf : T.find? (·.1 = baseName file) with
  | none =>
    refine ((List.filterMap_congr fun x hx => ?_).trans (List.filterMap_some T)).symm
    have := List.find?_eq_none.mp hf x hx
    simp only [decide_eq_true_eq] at this
    simp [eraseEntry, this]
  | some entry =>
    obtain ⟨name, lines⟩ := entry
    have hn : name = baseName file := by simpa using List.find?_some hf
    have hmem := List.mem_of_find?_eq_some hf
    have huniq : ∀ x ∈ T, x.1 = name → x = (name, lines) := fun x hx hxn =>
      List.inj_on_of_nodup_map hT hx hmem hxn
    dsimp only
    split
    · rw [← List.filterMap_eq_filter]
      refine List.filterMap_congr fun x hx => ?_
      by_cases hxn : x.1 = name
      · rw [huniq x hx hxn]; simp [eraseEntry, hn, *]
      · simp [eraseEntry, ← hn, hxn, Option.guard]
    · rw [← List.filterMap_eq_map]
      refine List.filterMap_congr fun x hx => ?_
      by_cases hxn : x.1 = name
      · rw [huniq x hx hxn]; simp [eraseEntry, hn, *]
      · simp [eraseEntry, ← hn, hxn]

/-- Erasing a hit line from an entry of the table after `hits` gives the entry after one hit
more. -/
theorem entryAfter_bind_eraseEntry (hits : List (String × Nat)) (name : String) (line : Nat)
    (entry : String × List Nat) :
    (entryAfter hits entry).bind (eraseEntry name line) =
      entryAfter (hits ++ [(name, line)]) entry := by
  obtain ⟨f, L⟩ := entry
  by_cases hf : f = name
  · subst hf
    unfold entryAfter
    by_cases h : (∃ p ∈ hits, p.1 = f) ∧ ∀ l ∈ L, (f, l) ∈ hits
    · -- the entry is gone already
      rw [if_pos h,
        if_pos ⟨⟨(f, line), by simp, rfl⟩, fun l hl => List.mem_append_left _ (h.2 l hl)⟩]
      rfl
    · rw [if_neg h]
      simp only [Option.some_bind, eraseEntry, if_true, List.filter_filter]
      have hp : (fun a => a != line && decide ((f, a) ∉ hits)) =
          fun l => decide ((f, l) ∉ hits ++ [(f, line)]) := by
        funext a; by_cases ha : a = line <;> simp [ha]
      have hc : (L.filter fun l => decide ((f, l) ∉ hits ++ [(f, line)])).isEmpty = true ↔
          (∃ p ∈ hits ++ [(f, line)], p.1 = f) ∧
            ∀ l ∈ L, (f, l) ∈ hits ++ [(f, line)] := by
        rw [List.isEmpty_iff, List.filter_eq_nil_iff]
        simp only [decide_eq_true_eq, not_not]
        exact ⟨fun hL => ⟨⟨(f, line), by simp, rfl⟩, hL⟩, fun hL => hL.2⟩
      simp only [hp, hc]
  · have hmem : ∀ l, (f, l) ∈ hits ++ [(name, line)] ↔ (f, l) ∈ hits := fun l => by
      simp [hf]
    have hex : (∃ p ∈ hits ++ [(name, line)], p.1 = f) ↔ ∃ p ∈ hits, p.1 = f := by
      simp only [List.mem_append, List.mem_singleton]
      constructor
      · rintro ⟨p, hp | rfl, hpf⟩
        · exact ⟨p, hp, hpf⟩
        · exact absurd hpf.symm hf
      · rintro ⟨p, hp, hpf⟩; exact ⟨p, .inl hp, hpf⟩
    unfold entryAfter
    simp only [hmem, hex]
    split <;> simp [eraseEntry, hf]

/-- One error, in the table after the errors at `hits`: the table after one hit more. -/
theorem eraseErrorLocation_tableAfter {T0 : List (String × List Nat)}
    (hT0 : (T0.map (·.1)).Nodup) (hits : List (String × Nat)) (file : String) (line : Nat) :
    eraseErrorLocation (tableAfter T0 hits) file line =
      tableAfter T0 (hits ++ [(baseName file, line)]) := by
  rw [eraseErrorLocation_eq_filterMap ((tableAfter_keys hits T0).nodup hT0), tableAfter,
    List.filterMap_filterMap]
  exact List.filterMap_congr fun entry _ => entryAfter_bind_eraseEntry _ _ _ entry

namespace Executor

variable {e : Executor}

/-- The fields `haltOnError` reads and writes, besides the error count. -/
def haltFields (e : Executor) : Options × List (String × List Nat) × Bool × Bool :=
  (e.opts, e.errorLocations, e.haltExecution, e.haltFromMaster)

theorem haltFields_terminateState (id : Nat) :
    (e.terminateState id).haltFields = e.haltFields := by
  unfold terminateState; split <;> rfl

theorem haltFields_terminateStateRecursivelyAux :
    ∀ (fuel : Nat) (e : Executor) (id : Nat),
      (terminateStateRecursivelyAux fuel e id).haltFields = e.haltFields
  | 0, _, _ => rfl
  | fuel + 1, e, id => by
    unfold terminateStateRecursivelyAux
    split
    · rw [haltFields_terminateStateRecursivelyAux fuel, haltFields_terminateState]
    · exact haltFields_terminateState id

theorem haltFields_terminateStateOrChain (id : Nat) :
    (e.terminateStateOrChain id).haltFields = e.haltFields := by
  unfold terminateStateOrChain
  split
  · split
    · exact haltFields_terminateStateRecursivelyAux _ _ _
    · exact haltFields_terminateState id
  · exact haltFields_terminateState id

section Table

variable {T0 : List (String × List Nat)} {H : List (String × Nat)} (hT0 : (T0.map (·.1)).Nodup)
  (ht : e.errorLocations = tableAfter T0 H)
  (hhalt : Covered T0 H →
    e.haltExecution = true ∧ (e.opts.coreId = 0 → e.haltFromMaster = true))
include hT0 ht hhalt

/-- An error of a reason in `ExitOnErrorType`, with the table after the errors at `H`: the
table after one hit more, and the halt at the error that empties the table. -/
theorem haltOnError_table {termReason : TerminateReason}
    (hexit : e.shouldExitOn termReason = true) (file : String) (line : Nat) :
    (e.haltOnError termReason file line).1.haltFields =
      (e.opts, tableAfter T0 (H ++ errorHits file line),
        e.haltExecution || decide (Covered T0 (H ++ errorHits file line)),
        e.haltFromMaster ||
          decide (Covered T0 (H ++ errorHits file line)) && e.opts.coreId == 0) ∧
    (e.haltOnError termReason file line).2 =
      if ¬ Covered T0 H ∧ Covered T0 (H ++ errorHits file line) ∧ e.opts.coreId ≠ 0 then
        [(.BUG_FOUND, [])] else [] := by
  unfold haltOnError
  rw [if_neg (by simpa using hexit)]
  by_cases hc : Covered T0 H
  · -- the table is already empty
    have hnil : e.errorLocations = [] := ht.trans (tableAfter_eq_nil.mpr hc)
    have hc' := hc.append (errorHits file line)
    obtain ⟨hh, hm⟩ := hhalt hc
    have hlt := tableAfter_eq_nil.mpr hc'
    have hfm : (e.haltFromMaster || decide (Covered T0 (H ++ errorHits file line)) &&
        e.opts.coreId == 0) = e.haltFromMaster := by
      by_cases h0 : e.opts.coreId = 0 <;> simp [h0, hm, hc']
    rw [if_pos (by simp [hnil])]
    split <;> simpa [haltFields, hnil, hlt, hh, hfm, hc, hc'] using hm
  · rw [if_neg (by simpa [ht, List.isEmpty_iff] using mt tableAfter_eq_nil.mp hc)]
    by_cases hfile : file = ""
    · rw [if_pos hfile]
      simp [haltFields, errorHits, hfile, ht, hc]
    · rw [if_neg hfile]
      have hh : errorHits file line = [(baseName file, line)] := if_neg hfile
      dsimp only
      rw [ht, eraseErrorLocation_tableAfter hT0, ← hh]
      by_cases hc' : Covered T0 (H ++ errorHits file line)
      · rw [if_pos (by simpa [List.isEmpty_iff] using tableAfter_eq_nil.mpr hc')]
        by_cases h0 : e.opts.coreId = 0
        · rw [if_pos h0]; simp [haltFields, hc, hc', h0]
        · rw [if_neg h0]; simp [haltFields, hc, hc', h0]
      · rw [if_neg (by simpa [List.isEmpty_iff] using mt tableAfter_eq_nil.mp hc')]
        simp [haltFields, hc, hc']

/-- The same for `terminateStateOnError`: ending the state keeps the fields `haltOnError`
reads, whatever the error count and the errors already reported. -/
theorem terminateStateOnError_table {termReason : TerminateReason}
    (hexit : e.shouldExitOn termReason = true) (id : Nat) (message : String) (lastInst : Nat)
    (file : String) (line : Nat) :
    (e.terminateStateOnError id termReason message lastInst file line).1.haltFields =
      (e.opts, tableAfter T0 (H ++ errorHits file line),
        e.haltExecution || decide (Covered T0 (H ++ errorHits file line)),
        e.haltFromMaster ||
          decide (Covered T0 (H ++ errorHits file line)) && e.opts.coreId == 0) ∧
    (e.terminateStateOnError id termReason message lastInst file line).2 =
      if ¬ Covered T0 H ∧ Covered T0 (H ++ errorHits file line) ∧ e.opts.coreId ≠ 0 then
        [(.BUG_FOUND, [])] else [] := by
  dsimp only [terminateStateOnError]
  generalize hs : Executor.terminateStateOrChain _ id = e₁
  have hf : e₁.haltFields = e.haltFields := hs ▸ haltFields_terminateStateOrChain id
  simp only [haltFields, Prod.mk.injEq] at hf
  obtain ⟨ho, hl, hh, hm⟩ := hf
  have := haltOnError_table (e := e₁) hT0 (hl.trans ht) (by rw [hh, hm, ho]; exact hhalt)
    (by rw [shouldExitOn, ho]; exact hexit) file line
  rwa [ho, hh, hm] at this

end Table

end Executor

/-! ## A sequence of errors -/

/-- An error termination: the arguments of one call of `terminateStateOnError`. -/
structure ErrorCall where
  id : Nat
  termReason : TerminateReason
  message : String
  lastInst : Nat
  file : String
  line : Nat
  deriving DecidableEq, Repr

/-- A sequence of error terminations, with the messages they send. -/
def errorRun : Executor → List ErrorCall → Executor × List Message
  | e, [] => (e, [])
  | e, c :: cs =>
    let r := e.terminateStateOnError c.id c.termReason c.message c.lastInst c.file c.line
    let r' := errorRun r.1 cs
    (r'.1, r.2 ++ r'.2)

/-- The locations a sequence of error terminations reports to the table. -/
def callHits (calls : List ErrorCall) : List (String × Nat) :=
  calls.flatMap fun c => errorHits c.file c.line

/-- A sequence of errors of reasons in `ExitOnErrorType`, from the table after the errors at
`H`: the table after all of them, and one `BUG_FOUND` from a worker at the error that empties
the table. -/
theorem errorRun_table {T0 : List (String × List Nat)} (hT0 : (T0.map (·.1)).Nodup) :
    ∀ (calls : List ErrorCall) (e : Executor) (H : List (String × Nat)),
    e.errorLocations = tableAfter T0 H →
    (Covered T0 H →
      e.haltExecution = true ∧ (e.opts.coreId = 0 → e.haltFromMaster = true)) →
    (∀ c ∈ calls, e.shouldExitOn c.termReason = true) →
    (errorRun e calls).1.haltFields =
      (e.opts, tableAfter T0 (H ++ callHits calls),
        e.haltExecution || decide (Covered T0 (H ++ callHits calls)),
        e.haltFromMaster || decide (Covered T0 (H ++ callHits calls)) && e.opts.coreId == 0) ∧
    (errorRun e calls).2 =
      if ¬ Covered T0 H ∧ Covered T0 (H ++ callHits calls) ∧ e.opts.coreId ≠ 0 then
        [(.BUG_FOUND, [])] else []
  | [], e, H, ht, hhalt, _ => by
    simp only [errorRun, callHits, List.flatMap_nil, List.append_nil, Executor.haltFields, ← ht]
    by_cases hc : Covered T0 H
    · obtain ⟨hh, hm⟩ := hhalt hc
      by_cases h0 : e.opts.coreId = 0 <;> simp [hc, hh, h0, hm]
    · simp [hc]
  | c :: cs, e, H, ht, hhalt, hexit => by
    obtain ⟨h₁, hs₁⟩ := Executor.terminateStateOnError_table hT0 ht hhalt
      (hexit c (List.mem_cons_self _ _)) c.id c.message c.lastInst c.file c.line
    generalize hr : e.terminateStateOnError c.id c.termReason c.message c.lastInst c.file c.line =
      r at h₁ hs₁
    simp only [Executor.haltFields, Prod.mk.injEq] at h₁
    obtain ⟨ho, hl, hh, hm⟩ := h₁
    have happ : H ++ errorHits c.file c.line ++ callHits cs = H ++ callHits (c :: cs) := by
      simp [callHits]
    have hmono₀ : Covered T0 H → Covered T0 (H ++ errorHits c.file c.line) :=
      fun h => h.append _
    have hmono : Covered T0 (H ++ errorHits c.file c.line) →
        Covered T0 (H ++ callHits (c :: cs)) :=
      fun h => happ ▸ h.append _
    obtain ⟨h₂, hs₂⟩ := errorRun_table hT0 cs r.1 _ hl
      (fun hc => by rw [hh, hm, ho]; exact ⟨by simp [hc], fun h0 => by simp [hc, h0]⟩)
      (fun c' hc' => by rw [Executor.shouldExitOn, ho]; exact hexit c' (List.mem_cons_of_mem _ hc'))
    rw [happ] at h₂ hs₂
    simp only [errorRun, hr]
    simp only [Executor.haltFields, Prod.mk.injEq] at h₂ ⊢
    obtain ⟨ho₂, hl₂, hh₂, hm₂⟩ := h₂
    refine ⟨⟨ho₂.trans ho, hl₂, ?_, ?_⟩, ?_⟩
    · rw [hh₂, hh]
      by_cases hc : Covered T0 (H ++ callHits (c :: cs))
      · simp [hc]
      · simp [hc, mt hmono hc]
    · rw [hm₂, hm, ho]
      by_cases hc : Covered T0 (H ++ callHits (c :: cs))
      · cases h0 : e.opts.coreId == 0 <;> simp [hc]
      · simp [hc, mt hmono hc]
    · rw [hs₁, hs₂, ho]
      by_cases hc : Covered T0 (H ++ callHits (c :: cs))
      · by_cases hc₁ : Covered T0 (H ++ errorHits c.file c.line)
        · by_cases hc₀ : Covered T0 H <;> simp [hc, hc₁, hc₀]
        · simp [hc, hc₁, mt hmono₀ hc₁]
      · simp [hc, mt hmono hc, mt (hmono ∘ hmono₀) hc]

/-- A sequence of errors of reasons in `ExitOnErrorType`, in any order and with any repetitions,
from a non-empty table whose files are distinct: the table after them is `tableAfter` of the
locations they hit, whose locations are those of the first table not hit. It is empty exactly
when every location and every file of the first table has been hit; then, and only then, the
node has halted, with `haltFromMaster` on the master, and a worker has sent one `BUG_FOUND`. -/
theorem errorRun_halts_when_covered {e : Executor} (hT0 : (e.errorLocations.map (·.1)).Nodup)
    (hne : e.errorLocations ≠ []) {calls : List ErrorCall}
    (hexit : ∀ c ∈ calls, e.shouldExitOn c.termReason = true) :
    (errorRun e calls).1.errorLocations = tableAfter e.errorLocations (callHits calls) ∧
    locations (errorRun e calls).1.errorLocations =
      (locations e.errorLocations).filter (· ∉ callHits calls) ∧
    ((errorRun e calls).1.errorLocations = [] ↔ Covered e.errorLocations (callHits calls)) ∧
    (errorRun e calls).1.haltExecution =
      (e.haltExecution || decide (Covered e.errorLocations (callHits calls))) ∧
    (errorRun e calls).1.haltFromMaster =
      (e.haltFromMaster ||
        decide (Covered e.errorLocations (callHits calls)) && e.opts.coreId == 0) ∧
    (errorRun e calls).2 =
      if Covered e.errorLocations (callHits calls) ∧ e.opts.coreId ≠ 0 then [(.BUG_FOUND, [])]
      else [] := by
  have h0 := errorRun_table hT0 calls e [] (tableAfter_nil _).symm
    (fun h => absurd h (not_covered_nil hne)) hexit
  simp only [List.nil_append, Executor.haltFields, Prod.mk.injEq] at h0
  obtain ⟨⟨-, hl, hh, hm⟩, hs⟩ := h0
  refine ⟨hl, by rw [hl, locations_tableAfter], by rw [hl, tableAfter_eq_nil], hh, hm, ?_⟩
  rw [hs]
  simp [not_covered_nil hne]

/-- A worker's initial executor whose errors of pointer reasons are in `ExitOnErrorType`,
with the error-location table `T`. -/
def tableWorker (T : List (String × List Nat)) : Executor :=
  { (Node.init { coreId := 1, ExitOnErrorType := [.Ptr] } [] 0).e with errorLocations := T }

/-- A table whose one entry has no lines has no location, so every location has been hit after
any error; an error in another file leaves the entry, and the worker neither halts nor reports
`BUG_FOUND`. -/
theorem empty_entry_blocks_halt :
    let e := tableWorker [("a.c", [])]
    let c : ErrorCall := ⟨0, .Ptr, "memory error: out of bound pointer", 0, "b.c", 1⟩
    e.errorLocations ≠ [] ∧ locations e.errorLocations = [] ∧
      e.shouldExitOn c.termReason = true ∧ (errorRun e [c]).1.haltExecution = false ∧
      (errorRun e [c]).2 = [] := by
  decide

/-- Three errors, in `src/a.c` and in two files named `b.c`, hit the three locations of a
worker's table: the worker halts and reports `BUG_FOUND` once. -/
theorem three_errors_empty_table :
    let e := tableWorker [("a.c", [7]), ("b.c", [1, 2])]
    let calls : List ErrorCall :=
      [⟨0, .Ptr, "m", 0, "src/a.c", 7⟩, ⟨0, .Ptr, "m", 1, "b.c", 1⟩,
        ⟨0, .Ptr, "m", 2, "lib/b.c", 2⟩]
    Covered e.errorLocations (callHits calls) ∧ (errorRun e calls).1.haltExecution = true ∧
      (errorRun e calls).2 = [(.BUG_FOUND, [])] := by
  intro e calls
  have hc : Covered e.errorLocations (callHits calls) := by decide
  obtain ⟨-, -, -, hh, -, hs⟩ :=
    @errorRun_halts_when_covered e (by decide) (by decide) calls (by decide)
  exact ⟨hc, by rw [hh]; simp [hc], by rw [hs, if_pos ⟨hc, by decide⟩]⟩

end PChop
