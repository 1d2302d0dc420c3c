-- SUMMARY: A report accounts for each case of a directory once, in whatever order it is listed.
import Ssz.Fixture.Report
import Ssz.Proofs.Fixture.Directory
import Ssz.Snappy
import Mathlib.Data.List.Nodup

/-!
# Reports are complete

A run of a directory goes on after a case that fails, and each case ends up either
among those that passed or among those that failed, with its own error. What a case
adds to the report depends on that case alone. Cases are sorted by name before they
are run, and names in a directory are distinct, so nothing depends on the order in
which the directory was listed.
-/

namespace Ssz.Fixture

variable {α : Type} {format : BlockFormat} {s : Schema α} {path name : String} {dir : Directory}
variable {entries listing : List (String × CaseEntry)} {list : List (String × Directory)}

/-! ## One case -/

/-- What the run of one case gives. -/
def outcome (format : BlockFormat) (s : Schema α) (path name : String) (dir : Directory) :
    Except FixtureError Unit :=
  (runCase format s (joinPath path name) dir).result

/-- The one event of a case. -/
def caseEvent (format : BlockFormat) (s : Schema α) (path : String) : String × Directory → LogEvent
  | (name, dir) =>
    match checkCase format s dir with
    | .ok ssz => ⟨.debug, "fixture case passed",
        [("case", joinPath path name), ("bytes", toString ssz.length)]⟩
    | .error e => ⟨.debug, "fixture case failed", [("case", name), ("error", e.message)]⟩

theorem outcome_eq (format : BlockFormat) (s : Schema α) (path name : String) (dir : Directory) :
    outcome format s path name dir = (checkCase format s dir).map fun _ => () := by
  unfold outcome runCase
  cases checkCase format s dir <;> rfl

/-- Whatever came of a case, the rest is run. -/
theorem result_runCases_cons (format : BlockFormat) (s : Schema α) (path name : String)
    (dir : Directory) (list : List (String × Directory)) :
    (runCases format s path ((name, dir) :: list)).result
      = (runCases format s path list).result.add name (outcome format s path name dir) := by
  simp only [runCases, outcome, runCase]
  cases checkCase format s dir <;> rfl

theorem events_runCases_cons (format : BlockFormat) (s : Schema α) (path name : String)
    (dir : Directory) (list : List (String × Directory)) :
    (runCases format s path ((name, dir) :: list)).events
      = caseEvent format s path (name, dir) :: (runCases format s path list).events := by
  simp only [runCases, caseEvent, runCase]
  cases checkCase format s dir <;> simp [Logged.log]

/-! ## The report of a run -/

namespace Report

/-- The names of all cases that were run. -/
def names (report : Report) : List String := report.passed ++ report.failed.map Prod.fst

/-- The report accounts for cases that were run in this order, and keeps it. -/
structure Accounts (format : BlockFormat) (s : Schema α) (path : String)
    (list : List (String × Directory)) (report : Report) : Prop where
  names : report.names.Perm (list.map Prod.fst)
  passed : report.passed.Sublist (list.map Prod.fst)
  failed : (report.failed.map Prod.fst).Sublist (list.map Prod.fst)
  passed_iff : ∀ name, name ∈ report.passed ↔
    ∃ dir, (name, dir) ∈ list ∧ outcome format s path name dir = .ok ()
  failed_iff : ∀ name e, (name, e) ∈ report.failed ↔
    ∃ dir, (name, dir) ∈ list ∧ outcome format s path name dir = .error e

variable {report : Report}

theorem Accounts.empty : Accounts format s path [] empty where
  names := .nil
  passed := .slnil
  failed := .slnil
  passed_iff := by simp [Report.empty]
  failed_iff := by simp [Report.empty]

/-- One more case in front keeps the account. -/
theorem Accounts.add (h : Accounts format s path list report) (name : String) (dir : Directory) :
    Accounts format s path ((name, dir) :: list)
      (report.add name (outcome format s path name dir)) := by
  have hmem {other : String} {result : Except FixtureError Unit} :
      (∃ dir', (other, dir') ∈ (name, dir) :: list ∧ outcome format s path other dir' = result) ↔
        (other = name ∧ outcome format s path name dir = result) ∨
          ∃ dir', (other, dir') ∈ list ∧ outcome format s path other dir' = result := by
    simp only [List.mem_cons, Prod.mk.injEq, or_and_right, exists_or]
    refine or_congr_left ⟨?_, ?_⟩
    · rintro ⟨_, ⟨rfl, rfl⟩, hresult⟩
      exact ⟨rfl, hresult⟩
    · rintro ⟨rfl, hresult⟩
      exact ⟨dir, ⟨rfl, rfl⟩, hresult⟩
  cases hrun : outcome format s path name dir with
  | ok =>
    constructor
    · exact h.names.cons name
    · exact h.passed.cons_cons name
    · exact h.failed.cons name
    · intro other
      rw [hmem, hrun, ← h.passed_iff]
      simp [Report.add]
    · intro other e
      rw [hmem, hrun, ← h.failed_iff]
      simp [Report.add]
  | error e =>
    constructor
    · exact List.perm_middle.trans (h.names.cons name)
    · exact h.passed.cons name
    · exact h.failed.cons_cons name
    · intro other
      rw [hmem, hrun, ← h.passed_iff]
      simp [Report.add]
    · intro other e'
      rw [hmem, hrun, ← h.failed_iff]
      simp [Report.add, eq_comm]

end Report

theorem accounts_runCases (format : BlockFormat) (s : Schema α) (path : String)
    (list : List (String × Directory)) :
    (runCases format s path list).result.Accounts format s path list := by
  induction list with
  | nil => exact .empty
  | cons case list ih =>
    rw [result_runCases_cons]
    exact ih.add _ _

theorem events_runCases (format : BlockFormat) (s : Schema α) (path : String)
    (list : List (String × Directory)) :
    (runCases format s path list).events = list.map (caseEvent format s path) := by
  induction list with
  | nil => rfl
  | cons case list ih => rw [events_runCases_cons, ih, List.map_cons]

/-! ## Cases in order -/

/-- The order of names, that of their bytes. -/
def NameLt (a b : String) : Prop := a.toUTF8.toList < b.toUTF8.toList

theorem NameLt.asymm {a b : String} (h : NameLt a b) : ¬ NameLt b a := List.lt_asymm h

theorem eq_of_toUTF8 {a b : String} (h : a.toUTF8.toList = b.toUTF8.toList) : a = b := by
  have hread := Directory.fromUTF8?_toUTF8 a
  rw [h, Directory.fromUTF8?_toUTF8] at hread
  exact (Option.some.inj hread).symm

theorem nameLe_iff {a b : String × Directory} :
    nameLe a b = true ↔ a.1.toUTF8.toList ≤ b.1.toUTF8.toList := by
  simp only [nameLe, Bool.not_eq_true', decide_eq_false_iff_not]
  rfl

theorem nameLt_of_nameLe {a b : String × Directory} (h : nameLe a b = true) (hne : a.1 ≠ b.1) :
    NameLt a.1 b.1 :=
  Std.lt_of_le_of_ne (nameLe_iff.1 h) fun heq => hne (eq_of_toUTF8 heq)

theorem mem_cases : (name, dir) ∈ cases entries ↔ (name, .case dir) ∈ entries := by
  simp only [cases, List.mem_filterMap, Prod.exists]
  constructor
  · rintro ⟨other, entry, hmem, hcase⟩
    cases entry <;> cases hcase
    exact hmem
  · exact fun hmem => ⟨name, .case dir, hmem, rfl⟩

/-- The cases of a directory in the order in which they are run. -/
def inOrder (entries : List (String × CaseEntry)) : List (String × Directory) :=
  (cases entries).mergeSort nameLe

theorem inOrder_perm (entries : List (String × CaseEntry)) :
    (inOrder entries).Perm (cases entries) := List.mergeSort_perm _ _

theorem mem_inOrder : (name, dir) ∈ inOrder entries ↔ (name, .case dir) ∈ entries :=
  (inOrder_perm entries).mem_iff.trans mem_cases

theorem names_cases_sublist (entries : List (String × CaseEntry)) :
    ((cases entries).map Prod.fst).Sublist (entries.map Prod.fst) := by
  induction entries with
  | nil => exact .slnil
  | cons entry entries ih =>
    obtain ⟨name, _ | _⟩ := entry
    · exact ih.cons_cons name
    · exact ih.cons name

theorem length_cases (entries : List (String × CaseEntry)) :
    (cases entries).length = entries.countP (·.2 ≠ .plainFile) := by
  induction entries with
  | nil => rfl
  | cons entry entries ih =>
    obtain ⟨name, dir | _⟩ := entry
    · rw [List.countP_cons_of_pos (by simp), ← ih]
      rfl
    · rw [List.countP_cons_of_neg (by simp), ← ih]
      rfl

theorem nodup_inOrder (h : (entries.map Prod.fst).Nodup) :
    ((inOrder entries).map Prod.fst).Nodup :=
  ((inOrder_perm entries).map Prod.fst).nodup_iff.2 (h.sublist (names_cases_sublist entries))

theorem pairwise_inOrder (h : (entries.map Prod.fst).Nodup) :
    (inOrder entries).Pairwise fun a b => NameLt a.1 b.1 := by
  have hsorted : (inOrder entries).Pairwise fun a b => nameLe a b = true := by
    apply List.pairwise_mergeSort
    · intro a b c hab hbc
      exact nameLe_iff.2 (List.le_trans (nameLe_iff.1 hab) (nameLe_iff.1 hbc))
    · intro a b
      rw [Bool.or_eq_true, nameLe_iff, nameLe_iff]
      exact List.le_total _ _
  have hdistinct := List.pairwise_map.1 (nodup_inOrder h)
  exact hsorted.imp₂ (fun _ _ => nameLt_of_nameLe) hdistinct

/-- Distinct names have one order, however they were listed. -/
theorem inOrder_eq_of_perm (h : (entries.map Prod.fst).Nodup) (hperm : listing.Perm entries) :
    inOrder listing = inOrder entries := by
  have hlisting : (listing.map Prod.fst).Nodup := (hperm.map Prod.fst).nodup_iff.2 h
  have hcases : (cases listing).Perm (cases entries) := hperm.filterMap _
  refine List.Perm.eq_of_pairwise (fun a b _ _ hab hba => absurd hba hab.asymm)
    (pairwise_inOrder hlisting) (pairwise_inOrder h) ?_
  exact (inOrder_perm listing).trans (hcases.trans (inOrder_perm entries).symm)

/-! ## Directories -/

theorem result_runFixtures (format : BlockFormat) (s : Schema α) (path : String)
    (entries : List (String × CaseEntry)) :
    (runFixtures format s path (some entries)).result
      = .ok (runCases format s path (inOrder entries)).result := rfl

theorem events_runFixtures (format : BlockFormat) (s : Schema α) (path : String)
    (entries : List (String × CaseEntry)) :
    (runFixtures format s path (some entries)).events
      = ⟨.info, "running fixture directory",
          [("dir", path), ("cases", toString (inOrder entries).length)]⟩
        :: (inOrder entries).map (caseEvent format s path) := by
  rw [← events_runCases]
  exact List.append_nil _

theorem runFixtures_perm (format : BlockFormat) (s : Schema α) (path : String)
    (hnodup : (entries.map Prod.fst).Nodup) (hperm : listing.Perm entries) :
    runFixtures format s path (some listing) = runFixtures format s path (some entries) := by
  have hsorted : (cases listing).mergeSort nameLe = (cases entries).mergeSort nameLe :=
    inOrder_eq_of_perm hnodup hperm
  simp only [runFixtures, runDirectory, hsorted]

namespace Report

/-- Each case of a directory is in the report, once and with its own outcome, and nothing else is.
    Names are in order. -/
structure Complete (format : BlockFormat) (s : Schema α) (path : String)
    (entries : List (String × CaseEntry)) (report : Report) : Prop where
  once : ∀ name dir, (name, .case dir) ∈ entries → report.names.count name = 1
  passed_iff : ∀ name dir, (name, .case dir) ∈ entries →
    (name ∈ report.passed ↔ outcome format s path name dir = .ok ())
  failed_iff : ∀ name dir, (name, .case dir) ∈ entries →
    ∀ e, (name, e) ∈ report.failed ↔ outcome format s path name dir = .error e
  only_cases : ∀ name ∈ report.names, ∃ dir, (name, .case dir) ∈ entries
  passed_order : report.passed.Pairwise NameLt
  failed_order : (report.failed.map Prod.fst).Pairwise NameLt
  total_eq : report.total = entries.countP (·.2 ≠ .plainFile)

variable {report : Report}

theorem total_eq_length_names (report : Report) : report.total = report.names.length := by
  rw [names, List.length_append, List.length_map, total]

theorem Accounts.total_eq (h : report.Accounts format s path list) :
    report.total = list.length := by
  rw [total_eq_length_names, h.names.length_eq, List.length_map]

theorem Accounts.complete (h : report.Accounts format s path (inOrder entries))
    (hnodup : (entries.map Prod.fst).Nodup) : report.Complete format s path entries := by
  have hnames := nodup_inOrder hnodup
  have horder := List.pairwise_map.2 (pairwise_inOrder hnodup)
  -- A name stands for one case, so some case of that name is the case.
  have hcase {name : String} {dir : Directory} (hmem : (name, .case dir) ∈ entries)
      (result : Except FixtureError Unit) :
      (∃ dir', (name, dir') ∈ inOrder entries ∧ outcome format s path name dir' = result) ↔
        outcome format s path name dir = result := by
    constructor
    · rintro ⟨dir', hdir', hresult⟩
      cases List.inj_on_of_nodup_map hnames hdir' (mem_inOrder.2 hmem) rfl
      exact hresult
    · exact fun hresult => ⟨dir, mem_inOrder.2 hmem, hresult⟩
  constructor
  · intro name dir hmem
    rw [h.names.count_eq]
    exact List.count_eq_one_of_mem hnames (List.mem_map_of_mem (mem_inOrder.2 hmem))
  · exact fun name dir hmem => (h.passed_iff name).trans (hcase hmem _)
  · exact fun name dir hmem e => (h.failed_iff name e).trans (hcase hmem _)
  · intro name hname
    obtain ⟨⟨_, dir⟩, hdir, rfl⟩ := List.mem_map.1 (h.names.mem_iff.1 hname)
    exact ⟨dir, mem_inOrder.1 hdir⟩
  · exact horder.sublist h.passed
  · exact horder.sublist h.failed
  · rw [h.total_eq, (inOrder_perm entries).length_eq, length_cases]

/-- What the event of a case has to say, going by the report. -/
inductive Tells (format : BlockFormat) (s : Schema α) (path : String) (report : Report) :
    String × Directory → LogEvent → Prop
  | passed {name dir ssz} : name ∈ report.passed → checkCase format s dir = .ok ssz →
    Tells format s path report (name, dir) ⟨.debug, "fixture case passed",
      [("case", joinPath path name), ("bytes", toString ssz.length)]⟩
  | failed {name dir e} : (name, e) ∈ report.failed →
    Tells format s path report (name, dir) ⟨.debug, "fixture case failed",
      [("case", name), ("error", e.message)]⟩

theorem Accounts.tells (h : report.Accounts format s path list) (hmem : (name, dir) ∈ list) :
    report.Tells format s path (name, dir) (caseEvent format s path (name, dir)) := by
  have hrun := outcome_eq format s path name dir
  simp only [caseEvent]
  cases hcheck : checkCase format s dir with
  | ok ssz =>
    rw [hcheck] at hrun
    exact .passed ((h.passed_iff name).2 ⟨dir, hmem, hrun⟩) hcheck
  | error e =>
    rw [hcheck] at hrun
    exact .failed ((h.failed_iff name e).2 ⟨dir, hmem, hrun⟩)

end Report

/-- A directory whose listing succeeds is reported on in full, whatever becomes of its cases. The
    report and the log do not depend on the order of the listing, nor a case on the others. -/
theorem runFixtures_complete (format : BlockFormat) (s : Schema α) (path : String)
    {entries : List (String × CaseEntry)} (hnodup : (entries.map Prod.fst).Nodup) :
    ∃ report, (runFixtures format s path (some entries)).result = .ok report ∧
      report.Complete format s path entries ∧
      (∀ listing, listing.Perm entries →
        runFixtures format s path (some listing) = runFixtures format s path (some entries)) ∧
      (∀ others, (others.map Prod.fst).Nodup → ∀ name dir, (name, .case dir) ∈ entries →
        (name, .case dir) ∈ others →
          ∃ other, (runFixtures format s path (some others)).result = .ok other ∧
            (name ∈ report.passed ↔ name ∈ other.passed) ∧
            ∀ e, (name, e) ∈ report.failed ↔ (name, e) ∈ other.failed) ∧
      ∃ list events, (∀ name dir, (name, dir) ∈ list ↔ (name, .case dir) ∈ entries) ∧
        (list.Pairwise fun a b => NameLt a.1 b.1) ∧
        (runFixtures format s path (some entries)).events
          = ⟨.info, "running fixture directory",
              [("dir", path), ("cases", toString report.total)]⟩ :: events ∧
        List.Forall₂ (report.Tells format s path) list events := by
  have haccounts := accounts_runCases format s path (inOrder entries)
  have hcomplete := haccounts.complete hnodup
  refine ⟨_, result_runFixtures format s path entries, hcomplete,
    fun listing => runFixtures_perm format s path hnodup, ?_, ?_⟩
  · intro others hothers name dir hmem hother
    have hothers := (accounts_runCases format s path (inOrder others)).complete hothers
    refine ⟨_, result_runFixtures format s path others, ?_, fun e => ?_⟩
    · rw [hcomplete.passed_iff name dir hmem, hothers.passed_iff name dir hother]
    · rw [hcomplete.failed_iff name dir hmem, hothers.failed_iff name dir hother]
  · refine ⟨inOrder entries, (inOrder entries).map (caseEvent format s path),
      fun _ _ => mem_inOrder, pairwise_inOrder hnodup, ?_, ?_⟩
    · rw [events_runFixtures, haccounts.total_eq]
    · rw [List.forall₂_map_right_iff]
      exact List.forall₂_same.2 fun ⟨name, dir⟩ => haccounts.tells

/-- A case without files fails, beside a plain file and a case that passes. -/
theorem runFixtures_complete_bytes :
    let seven : Directory := [(valueFile, .file "7".toUTF8.toList),
      (serializedFile, .file [1, 0, 7]),
      (rootsFile, .file ("\x7broot: '0x07000000000000000000000000000000"
        ++ "00000000000000000000000000000000'\x7d\n").toUTF8.toList)]
    let entries := [("late", .case []), ("notes", .plainFile), ("early", .case seven)]
    (entries.map Prod.fst).Nodup ∧
      ∃ report,
        (runFixtures Snappy.format (Schema.uint .u8) "bytes" (some entries)).result
          = .ok report ∧
        "early" ∈ report.passed ∧ ("late", .access valueFile) ∈ report.failed ∧
        report.total = 2 := by
  intro seven entries
  have hnodup : (entries.map Prod.fst).Nodup := by decide
  obtain ⟨report, hreport, hcomplete, -⟩ :=
    runFixtures_complete Snappy.format (Schema.uint .u8) "bytes" hnodup
  have hpasses : outcome Snappy.format (Schema.uint .u8) "bytes" "early" seven = .ok () := by
    decide +kernel
  refine ⟨hnodup, report, hreport, ?_, ?_, hcomplete.total_eq⟩
  · exact (hcomplete.passed_iff "early" seven (by simp [entries])).2 hpasses
  · exact (hcomplete.failed_iff "late" [] (by simp [entries]) _).2 rfl

end Ssz.Fixture
