import Bloar.Marks

/-!
The offline check of a store, `bloard fsck`. Its walk reads every block that is pinned
or that a recursive pin reaches through valid blocks, and its report lists exactly the
corrupt and the missing ones among them. A repair deletes the corrupt blocks only, and
only after the whole inventory has been written and flushed.
-/

namespace Bloar.Fsck
open Ipld Archive Pinning
abbrev Blocks := Multihash → Option Block

inductive Fault where
  /-- "fsck reading pins of head …" -/
  | pins (head : String)
  | cancelled
  /-- "fsck reading block …" -/
  | reading (c : Cid)
  /-- "fsck reading links of block …" -/
  | links (c : Cid)
  /-- "fsck writing the discovery report (nothing was deleted)" -/
  | writing
  /-- "fsck flushing the discovery report (nothing was deleted)" -/
  | flushing
  /-- The walk of a head is longer than the polls of its context that are given. -/
  | unfinished
  deriving DecidableEq, Repr

/-- `fsckReport`; the errors of failed deletes are left out. -/
structure Report where
  scanned : Nat
  corrupt : List Cid
  missing : List Cid
  repaired : List Cid
  deleteFailed : List Cid
  deriving DecidableEq, Repr

def Report.empty : Report := ⟨0, [], [], [], []⟩

structure Fscker where
  report : Report
  validated : Finset Cid
  expanded : Finset Cid
  links : Cid → Option (List Cid)

def Fscker.new : Fscker := ⟨.empty, ∅, ∅, fun _ => none⟩

structure Weather where
  /-- The reads that fail for a reason of their own, counted from one. -/
  reads : Nat → Bool
  /-- The writes that fail, counted from zero. -/
  writes : Nat → Bool
  /-- Whether the flushes of the two reports fail. -/
  flushes : Bool × Bool
  /-- The deletes that fail, and whether the block is gone all the same. -/
  deletes : Cid → Option Bool

/-! ### The walk -/

section Walk
variable (ipld : Codec) (blocks : Blocks) (env : Weather)

def Fscker.validate (f : Fscker) (c : Cid) : Except Fault (Bool × Fscker) :=
  if c ∈ f.validated then .ok ((f.links c).isSome, f)
  else
    let f := { f with validated := insert c f.validated
                      report := { f.report with scanned := f.report.scanned + 1 } }
    if env.reads f.report.scanned then .error (.reading c)
    else
      match blocks c.hash with
      | none => .ok (false, { f with report := { f.report with missing := f.report.missing ++ [c] } })
      | some data =>
        if ipld.Verifies c data then
          if c.codec ≠ dagCBOR then .ok (false, f)
          else
            match ipld.decode data with
            | none => .error (.links c)
            | some node => .ok (true, { f with links := Function.update f.links c (some node.links) })
        else .ok (false, { f with report := { f.report with corrupt := f.report.corrupt ++ [c] } })

/-- The loops over pins and over links: every CID is validated, and the ones to walk are
pushed on the frontier if they can be. -/
def Fscker.scan : List (Cid × Bool) → List Cid → Fscker → Except Fault (List Cid × Fscker)
  | [], frontier, f => .ok (frontier, f)
  | (c, deep) :: rest, frontier, f =>
    match f.validate ipld blocks env c with
    | .error fault => .error fault
    | .ok (expandable, f) => scan rest (if deep && expandable then c :: frontier else frontier) f

/-- The loop over the frontier, with what each poll of the context answers. -/
def Fscker.walk : List Bool → List Cid → Fscker → Except Fault Fscker
  | _, [], f => .ok f
  | [], _ :: _, _ => .error .unfinished
  | cancelled :: polls, c :: rest, f =>
    if cancelled then .error .cancelled
    else if c ∈ f.expanded then walk polls rest f
    else
      match scan ipld blocks env (((f.links c).getD []).map fun k => (k, true)) rest
          { f with expanded := insert c f.expanded } with
      | .error fault => .error fault
      | .ok (frontier, f) => walk polls frontier f

def Fscker.walkPins (polls : List Bool) (pins : List Pin) (f : Fscker) : Except Fault Fscker :=
  match f.scan ipld blocks env (pins.map fun p => (p.cid, p.recursive)) [] with
  | .error fault => .error fault
  | .ok (frontier, f) => f.walk ipld blocks env polls frontier

end Walk

/-! ### The run -/

/-- A head to check: its pins, if `ListAll` answers, and the polls of the context during
its walk. -/
structure Head where
  name : String
  pins : Option (List Pin)
  polls : List Bool

inductive Line where
  | corrupt (c : Cid)
  | missing (c : Cid)
  | scanned (n : Nat)
  | corruptCount (n : Nat)
  | missingCount (n : Nat)
  | deleteFailed (c : Cid)
  | deleted (c : Cid)
  | deletedCount (n : Nat)
  | deleteFailedCount (n : Nat)
  deriving DecidableEq, Repr

def Report.discovery (r : Report) : List Line :=
  r.corrupt.map .corrupt ++ r.missing.map .missing ++
    [.scanned r.scanned, .corruptCount r.corrupt.length, .missingCount r.missing.length]

structure Output where
  lines : List Line
  tried : Nat
  failed : Nat
  deriving DecidableEq, Repr

section Run
variable (env : Weather)

/-- A write; its failure is only counted. -/
def Output.write (o : Output) (line : Line) : Output :=
  if env.writes o.tried then { o with tried := o.tried + 1, failed := o.failed + 1 }
  else { o with lines := o.lines ++ [line], tried := o.tried + 1 }

def Output.writeAll : List Line → Output → Bool × Output
  | [], o => (true, o)
  | line :: rest, o =>
    if env.writes o.tried then (false, o.write env line) else writeAll rest (o.write env line)

structure Repair where
  blocks : Blocks
  report : Report
  output : Output

def Repair.delete (r : Repair) (c : Cid) : Repair :=
  match env.deletes c with
  | none =>
    { blocks := Function.update r.blocks c.hash none
      report := { r.report with repaired := r.report.repaired ++ [c] }
      output := r.output.write env (.deleted c) }
  | some gone =>
    { blocks := if gone then Function.update r.blocks c.hash none else r.blocks
      report := { r.report with deleteFailed := r.report.deleteFailed ++ [c] }
      output := r.output.write env (.deleteFailed c) }

structure Outcome where
  report : Report
  fault : Option Fault
  output : Output
  blocks : Blocks

def repairAll (blocks : Blocks) (report : Report) (output : Output) : Outcome :=
  let r := report.corrupt.foldl (Repair.delete env) ⟨blocks, report, output⟩
  let output := r.output.write env (.deletedCount r.report.repaired.length)
  let output :=
    if r.report.deleteFailed ≠ [] then
      output.write env (.deleteFailedCount r.report.deleteFailed.length)
    else output
  -- The last flush is accumulated like the writes.
  let output := if env.flushes.2 then { output with failed := output.failed + 1 } else output
  ⟨r.report, none, output, r.blocks⟩

def Fscker.walkHeads (ipld : Codec) (blocks : Blocks) : List Head → Fscker → Except Fault Fscker
  | [], f => .ok f
  | head :: rest, f =>
    match head.pins with
    | none => .error (.pins head.name)
    | some pins =>
      match f.walkPins ipld blocks env head.polls pins with
      | .error fault => .error fault
      | .ok f => walkHeads ipld blocks rest f

def fsckCore (ipld : Codec) (blocks : Blocks) (heads : List Head) (repair : Bool) : Outcome :=
  let silent : Output := ⟨[], 0, 0⟩
  match Fscker.new.walkHeads env ipld blocks heads with
  | .error fault => ⟨.empty, some fault, silent, blocks⟩
  | .ok f =>
    match silent.writeAll env f.report.discovery with
    | (false, output) => ⟨.empty, some .writing, output, blocks⟩
    | (true, output) =>
      if env.flushes.1 then ⟨.empty, some .flushing, output, blocks⟩
      else if repair then repairAll env blocks f.report output
      else ⟨f.report, none, output, blocks⟩

end Run

/-! ### What a walk comes to -/

section Closure
variable (ipld : Codec) (blocks : Blocks)

def Valid (c : Cid) : Prop := ∃ data, blocks c.hash = some data ∧ ipld.Verifies c data

def Corrupt (c : Cid) : Prop := ∃ data, blocks c.hash = some data ∧ ¬ ipld.Verifies c data

def Leads (a b : Cid) : Prop := Valid ipld blocks a ∧ ipld.LinksTo a b

/-- The CID is pinned, or a recursive pin reaches it through valid blocks. -/
def Found (pins : List Pin) (c : Cid) : Prop :=
  ∃ p ∈ pins, if p.recursive then Relation.ReflTransGen (Leads ipld blocks) p.cid c else c = p.cid

def kidsOf (c : Cid) : Option (List Cid) :=
  if c.codec = dagCBOR then
    match blocks c.hash with
    | some data => if ipld.Verifies c data then (ipld.decode data).map Node.links else none
    | none => none
  else none

/-- The report lists the corrupt and the missing blocks among those found, each once. -/
structure Inventory (pins : List Pin) (report : Report) : Prop where
  corrupt : ∀ c, c ∈ report.corrupt ↔ Found ipld blocks pins c ∧ Corrupt ipld blocks c
  missing : ∀ c, c ∈ report.missing ↔ Found ipld blocks pins c ∧ blocks c.hash = none
  corrupt_once : report.corrupt.Nodup
  missing_once : report.missing.Nodup

end Closure

def Report.Clean (report : Report) : Prop := report.corrupt = [] ∧ report.missing = []

def MarksAlone (setup : Setup) (groups : List HeadMark) (rounds : List Round) : Prop :=
  (∃ marked, (Marking.start groups).run setup rounds = .done marked) ∧
    (Marking.start groups).fetches setup rounds = []

section Facts
variable {ipld : Codec} {blocks : Blocks} {env : Weather} {f f' : Fscker} {c d : Cid}

theorem leads_iff {kids : List Cid} (known : kidsOf ipld blocks c = some kids) :
    Leads ipld blocks c d ↔ d ∈ kids := by
  unfold kidsOf at known
  split at known
  · rename_i inner
    split at known
    · rename_i data found
      split at known
      · rename_i verified
        obtain ⟨node, decoded, rfl⟩ := Option.map_eq_some_iff.mp known
        have links := Marking.linksTo_iff (d := d) inner verified decoded
        exact ⟨fun leads => links.mp leads.2, fun kid => ⟨⟨data, found, verified⟩, links.mpr kid⟩⟩
      · cases known
    · cases known
  · cases known

theorem valid_or (ipld : Codec) (blocks : Blocks) (c : Cid) :
    Valid ipld blocks c ∨ Corrupt ipld blocks c ∨ blocks c.hash = none := by
  cases found : blocks c.hash with
  | none => exact .inr (.inr rfl)
  | some data =>
    by_cases verified : ipld.Verifies c data
    · exact .inl ⟨data, found, verified⟩
    · exact .inr (.inl ⟨data, found, verified⟩)

theorem Corrupt.not_valid (corrupt : Corrupt ipld blocks c) : ¬ Valid ipld blocks c := by
  rintro ⟨data, found, verified⟩
  obtain ⟨data', found', refuted⟩ := corrupt
  rw [found] at found'
  cases found'
  exact refuted verified

structure Accounts (ipld : Codec) (blocks : Blocks) (f : Fscker) : Prop where
  corrupt : ∀ c, c ∈ f.report.corrupt ↔ c ∈ f.validated ∧ Corrupt ipld blocks c
  missing : ∀ c, c ∈ f.report.missing ↔ c ∈ f.validated ∧ blocks c.hash = none
  corrupt_once : f.report.corrupt.Nodup
  missing_once : f.report.missing.Nodup
  links : ∀ c, f.links c = if c ∈ f.validated then kidsOf ipld blocks c else none
  decodes : ∀ c ∈ f.validated, c.codec = dagCBOR → Valid ipld blocks c →
    (kidsOf ipld blocks c).isSome
  fresh : f.report.repaired = [] ∧ f.report.deleteFailed = []

theorem new_accounts : Accounts ipld blocks .new := by
  constructor <;> simp [Fscker.new, Report.empty]

theorem records {P : Cid → Prop} {list list' : List Cid} {validated : Finset Cid}
    (records : ∀ c, c ∈ list ↔ c ∈ validated ∧ P c) (once : list.Nodup) (new : c ∉ validated)
    (added : P c ∧ list' = list ++ [c] ∨ ¬ P c ∧ list' = list) :
    (∀ d, d ∈ list' ↔ d ∈ insert c validated ∧ P d) ∧ list'.Nodup := by
  have unlisted : c ∉ list := fun listed => new ((records c).mp listed).1
  rcases added with ⟨has, rfl⟩ | ⟨lacks, rfl⟩
  · constructor
    · intro d
      rw [List.mem_append, List.mem_singleton, records, Finset.mem_insert]
      constructor
      · rintro (old | rfl)
        · exact ⟨.inr old.1, old.2⟩
        · exact ⟨.inl rfl, has⟩
      · rintro ⟨rfl | old, has'⟩
        · exact .inr rfl
        · exact .inl ⟨old, has'⟩
    · rw [← List.concat_eq_append]
      exact once.concat unlisted
  · refine ⟨fun d => ?_, once⟩
    rw [records, Finset.mem_insert]
    constructor
    · rintro ⟨old, has⟩
      exact ⟨.inr old, has⟩
    · rintro ⟨rfl | old, has⟩
      · exact absurd has lacks
      · exact ⟨old, has⟩

variable (accounts : Accounts ipld blocks f)
include accounts

theorem Accounts.extend (new : c ∉ f.validated) (validated : f'.validated = insert c f.validated)
    (corrupt : Corrupt ipld blocks c ∧ f'.report.corrupt = f.report.corrupt ++ [c] ∨
      ¬ Corrupt ipld blocks c ∧ f'.report.corrupt = f.report.corrupt)
    (missing : blocks c.hash = none ∧ f'.report.missing = f.report.missing ++ [c] ∨
      ¬ blocks c.hash = none ∧ f'.report.missing = f.report.missing)
    (links : ∀ d, f'.links d = if d = c then kidsOf ipld blocks c else f.links d)
    (decodes : c.codec = dagCBOR → Valid ipld blocks c → (kidsOf ipld blocks c).isSome)
    (fresh : f'.report.repaired = [] ∧ f'.report.deleteFailed = []) : Accounts ipld blocks f' := by
  obtain ⟨corrupt', corruptOnce⟩ := records accounts.corrupt accounts.corrupt_once new corrupt
  obtain ⟨missing', missingOnce⟩ := records accounts.missing accounts.missing_once new missing
  refine ⟨by rwa [validated], by rwa [validated], corruptOnce, missingOnce, fun d => ?_,
    fun d member => ?_, fresh⟩
  · rw [links, validated]
    by_cases same : d = c
    · simp [same]
    · simp [same, accounts.links]
  · rw [validated] at member
    rcases Finset.mem_insert.mp member with rfl | old
    · exact decodes
    · exact accounts.decodes d old

theorem Accounts.expand {expanded : Finset Cid} : Accounts ipld blocks { f with expanded } :=
  { accounts with }

theorem validate_spec {expandable : Bool}
    (ran : f.validate ipld blocks env c = .ok (expandable, f')) :
    Accounts ipld blocks f' ∧ f'.validated = insert c f.validated ∧ f'.expanded = f.expanded ∧
      expandable = (kidsOf ipld blocks c).isSome := by
  unfold Fscker.validate at ran
  split at ran
  · rename_i old
    cases ran
    exact ⟨accounts, (Finset.insert_eq_self.mpr old).symm, rfl, by rw [accounts.links, if_pos old]⟩
  · rename_i new
    have unlinked (d : Cid) (none : kidsOf ipld blocks c = none) :
        f.links d = if d = c then kidsOf ipld blocks c else f.links d := by
      split
      · rename_i same
        rw [same, accounts.links, if_neg new, none]
      · rfl
    dsimp only at ran
    split at ran
    · cases ran
    · split at ran
      · rename_i absent
        cases ran
        have kids : kidsOf ipld blocks c = none := by simp [kidsOf, absent]
        have invalid : ¬ Valid ipld blocks c := by simp [Valid, absent]
        refine ⟨accounts.extend new rfl (.inr ⟨by simp [Corrupt, absent], rfl⟩)
          (.inl ⟨absent, rfl⟩) (fun d => unlinked d kids) (fun _ valid => absurd valid invalid)
          accounts.fresh, rfl, rfl, by simp [kids]⟩
      · rename_i data found
        have present : ¬ blocks c.hash = none := by simp [found]
        split at ran
        · rename_i verified
          have sane : ¬ Corrupt ipld blocks c :=
            fun corrupt => corrupt.not_valid ⟨data, found, verified⟩
          split at ran
          · rename_i leaf
            cases ran
            have kids : kidsOf ipld blocks c = none := by simp [kidsOf, leaf]
            exact ⟨accounts.extend new rfl (.inr ⟨sane, rfl⟩) (.inr ⟨present, rfl⟩)
              (fun d => unlinked d kids) (fun inner => absurd inner leaf) accounts.fresh, rfl, rfl,
              by simp [kids]⟩
          · rename_i inner
            split at ran
            · cases ran
            · rename_i node decoded
              cases ran
              have kids : kidsOf ipld blocks c = some node.links := by
                simp [kidsOf, not_not.mp inner, found, verified, decoded]
              refine ⟨accounts.extend new rfl (.inr ⟨sane, rfl⟩) (.inr ⟨present, rfl⟩)
                (fun d => ?_) (fun _ _ => by simp [kids]) accounts.fresh, rfl, rfl, by simp [kids]⟩
              by_cases same : d = c
              · simp [same, kids]
              · simp [same]
        · rename_i refuted
          cases ran
          have kids : kidsOf ipld blocks c = none := by simp [kidsOf, found, refuted]
          have corrupt : Corrupt ipld blocks c := ⟨data, found, refuted⟩
          exact ⟨accounts.extend new rfl (.inl ⟨corrupt, rfl⟩) (.inr ⟨present, rfl⟩)
            (fun d => unlinked d kids) (fun _ valid => absurd valid corrupt.not_valid)
            accounts.fresh, rfl, rfl, by simp [kids]⟩

omit accounts

structure Scanned (ipld : Codec) (blocks : Blocks) (items : List (Cid × Bool))
    (frontier : List Cid) (f : Fscker) (frontier' : List Cid) (f' : Fscker) : Prop where
  accounts : Accounts ipld blocks f'
  validated : ∀ c, c ∈ f'.validated ↔ c ∈ f.validated ∨ ∃ deep, (c, deep) ∈ items
  expanded : f'.expanded = f.expanded
  queued : ∀ c, c ∈ frontier' ↔ c ∈ frontier ∨ (c, true) ∈ items ∧ (kidsOf ipld blocks c).isSome
  length : frontier'.length ≤ frontier.length + items.length

include accounts in
theorem scan_spec {items : List (Cid × Bool)} {frontier frontier' : List Cid}
    (ran : f.scan ipld blocks env items frontier = .ok (frontier', f')) :
    Scanned ipld blocks items frontier f frontier' f' := by
  induction items generalizing frontier f with
  | nil =>
    cases ran
    exact ⟨accounts, by simp, rfl, by simp, by simp⟩
  | cons item rest ih =>
    obtain ⟨c, deep⟩ := item
    rw [Fscker.scan] at ran
    split at ran
    · cases ran
    · rename_i expandable next validated
      obtain ⟨accounts', grown, same, rfl⟩ := validate_spec accounts validated
      obtain ⟨accounts'', validated', expanded, frontier'', length⟩ := ih accounts' ran
      refine ⟨accounts'', fun d => ?_, expanded.trans same, fun d => ?_, ?_⟩
      · rw [validated', grown, Finset.mem_insert]
        constructor
        · rintro ((rfl | old) | ⟨deep', later⟩)
          · exact .inr ⟨deep, List.mem_cons_self ..⟩
          · exact .inl old
          · exact .inr ⟨deep', List.mem_cons_of_mem _ later⟩
        · rintro (old | ⟨deep', member⟩)
          · exact .inl (.inr old)
          · rcases List.mem_cons.mp member with same | later
            · cases same
              exact .inl (.inl rfl)
            · exact .inr ⟨deep', later⟩
      · rw [frontier'', List.mem_cons]
        cases deep with
        | false => simp
        | true =>
          by_cases expands : (kidsOf ipld blocks c).isSome
          · simp only [expands, Bool.and_self, if_true, List.mem_cons, Prod.mk.injEq, and_true]
            constructor
            · rintro ((rfl | old) | later)
              · exact .inr ⟨.inl rfl, expands⟩
              · exact .inl old
              · exact .inr ⟨.inr later.1, later.2⟩
            · rintro (old | ⟨rfl | later, kids⟩)
              · exact .inl (.inr old)
              · exact .inl (.inl rfl)
              · exact .inr ⟨later, kids⟩
          · simp only [Prod.mk.injEq, and_true]
            rw [if_neg (by simp [expands])]
            constructor
            · rintro (old | later)
              · exact .inl old
              · exact .inr ⟨.inr later.1, later.2⟩
            · rintro (old | ⟨rfl | later, kids⟩)
              · exact .inl old
              · exact absurd kids expands
              · exact .inr ⟨later, kids⟩
      · rw [List.length_cons]
        split at length
        · rw [List.length_cons] at length
          omega
        · omega

/-! ### The closure of a walk -/

def Deep (ipld : Codec) (blocks : Blocks) (pins : List Pin) (c : Cid) : Prop :=
  ∃ p ∈ pins, p.recursive = true ∧ Relation.ReflTransGen (Leads ipld blocks) p.cid c

theorem Deep.found {pins : List Pin} (deep : Deep ipld blocks pins c) :
    Found ipld blocks pins c := by
  obtain ⟨p, member, recursive, path⟩ := deep
  exact ⟨p, member, by rwa [if_pos recursive]⟩

def Settled (ipld : Codec) (blocks : Blocks) (frontier : List Cid) (f : Fscker) (c : Cid) : Prop :=
  c ∈ f.validated ∧ ((kidsOf ipld blocks c).isSome → c ∈ f.expanded ∨ c ∈ frontier)

structure Walks (ipld : Codec) (blocks : Blocks) (pins past : List Pin) (frontier : List Cid)
    (f : Fscker) : Prop where
  accounts : Accounts ipld blocks f
  found : ∀ c ∈ f.validated, Found ipld blocks pins c
  queued : ∀ c ∈ frontier, c ∈ f.validated ∧ Deep ipld blocks pins c ∧
    (kidsOf ipld blocks c).isSome
  closed : ∀ c ∈ f.expanded, ∀ kids, kidsOf ipld blocks c = some kids →
    ∀ k ∈ kids, Settled ipld blocks frontier f k
  pinned : ∀ p ∈ past, p.cid ∈ f.validated
  roots : ∀ p ∈ past, p.recursive = true → Settled ipld blocks frontier f p.cid

section Steps
variable {pins past : List Pin} {frontier frontier' : List Cid}

theorem new_walks (pins : List Pin) : Walks ipld blocks pins [] [] .new :=
  ⟨new_accounts, by simp [Fscker.new], by simp, by simp [Fscker.new], by simp, by simp⟩

variable {items : List (Cid × Bool)} {more : List Pin} {polls : List Bool}

theorem Settled.scan (settled : Settled ipld blocks frontier f c)
    (scanned : Scanned ipld blocks items frontier f frontier' f') :
    Settled ipld blocks frontier' f' c := by
  refine ⟨(scanned.validated c).mpr (.inl settled.1), fun kids => ?_⟩
  rcases settled.2 kids with expanded | waiting
  · exact .inl (by rwa [scanned.expanded])
  · exact .inr ((scanned.queued c).mpr (.inl waiting))

/-- Every CID of the loop that is to be walked is settled by it. -/
theorem Scanned.settles (scanned : Scanned ipld blocks items frontier f frontier' f')
    (member : (c, true) ∈ items) : Settled ipld blocks frontier' f' c :=
  ⟨(scanned.validated c).mpr (.inr ⟨true, member⟩),
    fun kids => .inr ((scanned.queued c).mpr (.inr ⟨member, kids⟩))⟩

theorem Walks.pin (walks : Walks ipld blocks pins past [] f) (part : more ⊆ pins)
    (scanned : Scanned ipld blocks (more.map fun p => (p.cid, p.recursive)) [] f frontier' f') :
    Walks ipld blocks pins (past ++ more) frontier' f' := by
  refine ⟨scanned.accounts, fun c member => ?_, fun c waiting => ?_, ?_, ?_, ?_⟩
  · rcases (scanned.validated c).mp member with old | ⟨deep, item⟩
    · exact walks.found c old
    · obtain ⟨p, inside, same⟩ := List.mem_map.mp item
      cases same
      refine ⟨p, part inside, ?_⟩
      split
      · exact .refl
      · rfl
  · obtain ⟨item, kids⟩ := ((scanned.queued c).mp waiting).resolve_left (by simp)
    have read := (scanned.validated c).mpr (.inr ⟨_, item⟩)
    obtain ⟨p, inside, same⟩ := List.mem_map.mp item
    simp only [Prod.mk.injEq] at same
    obtain ⟨rfl, deep⟩ := same
    exact ⟨read, ⟨p, part inside, deep, .refl⟩, kids⟩
  · intro c expanded kids known k kid
    rw [scanned.expanded] at expanded
    exact (walks.closed c expanded kids known k kid).scan scanned
  · intro p member
    rcases List.mem_append.mp member with old | inside
    · exact (scanned.validated _).mpr (.inl (walks.pinned p old))
    · exact (scanned.validated _).mpr (.inr ⟨_, List.mem_map.mpr ⟨p, inside, rfl⟩⟩)
  · intro p member deep
    rcases List.mem_append.mp member with old | inside
    · exact (walks.roots p old deep).scan scanned
    · exact scanned.settles (List.mem_map.mpr ⟨p, inside, by rw [deep]⟩)

theorem Walks.skip (walks : Walks ipld blocks pins past (c :: frontier) f)
    (old : c ∈ f.expanded) : Walks ipld blocks pins past frontier f := by
  have keep {d : Cid} (settled : Settled ipld blocks (c :: frontier) f d) :
      Settled ipld blocks frontier f d := by
    refine ⟨settled.1, fun kids => ?_⟩
    rcases settled.2 kids with expanded | waiting
    · exact .inl expanded
    · rcases List.mem_cons.mp waiting with rfl | later
      · exact .inl old
      · exact .inr later
  exact ⟨walks.accounts, walks.found,
    fun d waiting => walks.queued d (List.mem_cons_of_mem _ waiting),
    fun d expanded kids known k kid => keep (walks.closed d expanded kids known k kid),
    walks.pinned, fun p member deep => keep (walks.roots p member deep)⟩

theorem Walks.expand {kids : List Cid} (walks : Walks ipld blocks pins past (c :: frontier) f)
    (known : kidsOf ipld blocks c = some kids)
    (scanned : Scanned ipld blocks (kids.map fun k => (k, true)) frontier
      { f with expanded := insert c f.expanded } frontier' f') :
    Walks ipld blocks pins past frontier' f' := by
  obtain ⟨-, ⟨p, member, deep, path⟩, -⟩ := walks.queued c (List.mem_cons_self ..)
  have kid_deep {k : Cid} (kid : k ∈ kids) : Deep ipld blocks pins k :=
    ⟨p, member, deep, path.tail ((leads_iff known).mpr kid)⟩
  have item {k : Cid} {deep : Bool} (inside : (k, deep) ∈ kids.map fun k => (k, true)) :
      k ∈ kids := by
    obtain ⟨k', kid, same⟩ := List.mem_map.mp inside
    cases same
    exact kid
  have keep {d : Cid} (settled : Settled ipld blocks (c :: frontier) f d) :
      Settled ipld blocks frontier' f' d := by
    have here : Settled ipld blocks frontier { f with expanded := insert c f.expanded } d := by
      refine ⟨settled.1, fun kids => ?_⟩
      rcases settled.2 kids with expanded | waiting
      · exact .inl (Finset.mem_insert_of_mem expanded)
      · rcases List.mem_cons.mp waiting with rfl | later
        · exact .inl (Finset.mem_insert_self _ _)
        · exact .inr later
    exact here.scan scanned
  refine ⟨scanned.accounts, fun d inside => ?_, fun d waiting => ?_, ?_, ?_, ?_⟩
  · rcases (scanned.validated d).mp inside with old | ⟨_, new⟩
    · exact walks.found d old
    · exact (kid_deep (item new)).found
  · rcases (scanned.queued d).mp waiting with old | ⟨new, kids⟩
    · obtain ⟨read, deep, kids⟩ := walks.queued d (List.mem_cons_of_mem _ old)
      exact ⟨(scanned.validated d).mpr (.inl read), deep, kids⟩
    · exact ⟨(scanned.validated d).mpr (.inr ⟨_, new⟩), kid_deep (item new), kids⟩
  · intro d expanded kids' known' k kid
    rw [scanned.expanded] at expanded
    rcases Finset.mem_insert.mp expanded with rfl | old
    · rw [known] at known'
      cases known'
      exact scanned.settles (List.mem_map.mpr ⟨k, kid, rfl⟩)
    · exact keep (walks.closed d old kids' known' k kid)
  · exact fun p member => (scanned.validated _).mpr (.inl (walks.pinned p member))
  · exact fun p member deep => keep (walks.roots p member deep)

theorem walk_spec (walks : Walks ipld blocks pins past frontier f)
    (ran : f.walk ipld blocks env polls frontier = .ok f') : Walks ipld blocks pins past [] f' := by
  induction polls generalizing frontier f with
  | nil =>
    cases frontier with
    | nil =>
      cases ran
      exact walks
    | cons => cases ran
  | cons cancelled polls ih =>
    cases frontier with
    | nil =>
      cases ran
      exact walks
    | cons c rest =>
      rw [Fscker.walk] at ran
      split at ran
      · cases ran
      · split at ran
        · rename_i old
          exact ih (walks.skip old) ran
        · split at ran
          · cases ran
          · rename_i frontier' next scan
            obtain ⟨read, -, expands⟩ := walks.queued c (List.mem_cons_self ..)
            obtain ⟨kids, known⟩ := Option.isSome_iff_exists.mp expands
            rw [walks.accounts.links, if_pos read, known, Option.getD_some] at scan
            exact ih (walks.expand known (scan_spec walks.accounts.expand scan)) ran

theorem walkPins_spec (part : more ⊆ pins) (walks : Walks ipld blocks pins past [] f)
    (ran : f.walkPins ipld blocks env polls more = .ok f') :
    Walks ipld blocks pins (past ++ more) [] f' := by
  unfold Fscker.walkPins at ran
  split at ran
  · cases ran
  · rename_i frontier next scan
    exact walk_spec (walks.pin part (scan_spec walks.accounts scan)) ran

def pinsOf (heads : List Head) : List Pin := heads.flatMap fun head => head.pins.getD []

theorem walkHeads_spec {heads : List Head} (part : pinsOf heads ⊆ pins)
    (walks : Walks ipld blocks pins past [] f)
    (ran : f.walkHeads env ipld blocks heads = .ok f') :
    Walks ipld blocks pins (past ++ pinsOf heads) [] f' := by
  induction heads generalizing f past with
  | nil =>
    cases ran
    simpa [pinsOf] using walks
  | cons head rest ih =>
    rw [Fscker.walkHeads] at ran
    split at ran
    · cases ran
    · rename_i more listed
      have split : pinsOf (head :: rest) = more ++ pinsOf rest := by simp [pinsOf, listed]
      rw [split, List.append_subset] at part
      split at ran
      · cases ran
      · rename_i next walked
        rw [split, ← List.append_assoc]
        exact ih part.2 (walkPins_spec part.1 walks walked) ran

theorem Walks.validated_iff (walks : Walks ipld blocks pins pins [] f) :
    c ∈ f.validated ↔ Found ipld blocks pins c := by
  refine ⟨walks.found c, ?_⟩
  rintro ⟨p, member, covers⟩
  split at covers
  · rename_i deep
    have settled : Settled ipld blocks [] f c := by
      induction covers with
      | refl => exact walks.roots p member deep
      | @tail a b _ leads ih =>
        have some := walks.accounts.decodes a ih.1 leads.2.1 leads.1
        obtain ⟨kids, known⟩ := Option.isSome_iff_exists.mp some
        have expanded := (ih.2 some).resolve_right (by simp)
        exact walks.closed a expanded kids known b ((leads_iff known).mp leads)
    exact settled.1
  · rw [covers]
    exact walks.pinned p member

end Steps

end Facts

/-! ### Agreement with the collector -/

section Agreement
variable {ipld : Codec} {blocks : Blocks} {pins : List Pin} {f : Fscker} {c : Cid}

theorem covers_mono {R R' : Cid → Cid → Prop} (le : R ≤ R') {p : Pin}
    (covers : if p.recursive then Relation.ReflTransGen R p.cid c else c = p.cid) :
    if p.recursive then Relation.ReflTransGen R' p.cid c else c = p.cid := by
  cases deep : p.recursive with
  | true =>
    rw [deep] at covers
    exact Relation.ReflTransGen.mono le _ _ covers
  | false => rwa [deep] at covers

theorem Found.retained (found : Found ipld blocks pins c) : Retained ipld pins c := by
  obtain ⟨p, member, covers⟩ := found
  exact ⟨p, member, covers_mono (fun a b leads => leads.2) covers⟩

/-- If everything found is valid, the walk has found all there is. -/
theorem found_of_retained (valid : ∀ c, Found ipld blocks pins c → Valid ipld blocks c)
    (kept : Retained ipld pins c) : Found ipld blocks pins c := by
  obtain ⟨p, member, covers⟩ := kept
  unfold Pin.Covers at covers
  split at covers
  · rename_i deep
    refine Deep.found ⟨p, member, deep, ?_⟩
    induction covers with
    | refl => exact .refl
    | @tail a b _ link ih =>
      exact ih.tail ⟨valid a (Deep.found ⟨p, member, deep, ih⟩), link⟩
  · rename_i direct
    exact ⟨p, member, by rwa [if_neg direct]⟩

theorem Walks.clean_iff (walks : Walks ipld blocks pins pins [] f) :
    f.report.Clean ↔
      ∀ c, Found ipld blocks pins c → Valid ipld blocks c := by
  constructor
  · rintro ⟨noCorrupt, noMissing⟩ c found
    have read := walks.validated_iff.mpr found
    rcases valid_or ipld blocks c with valid | corrupt | missing
    · exact valid
    · have listed := (walks.accounts.corrupt c).mpr ⟨read, corrupt⟩
      simp [noCorrupt] at listed
    · have listed := (walks.accounts.missing c).mpr ⟨read, missing⟩
      simp [noMissing] at listed
  · intro valid
    constructor
    · refine List.eq_nil_iff_forall_not_mem.mpr fun c listed => ?_
      obtain ⟨read, corrupt⟩ := (walks.accounts.corrupt c).mp listed
      exact corrupt.not_valid (valid c (walks.validated_iff.mp read))
    · refine List.eq_nil_iff_forall_not_mem.mpr fun c listed => ?_
      obtain ⟨read, missing⟩ := (walks.accounts.missing c).mp listed
      obtain ⟨data, found, -⟩ := valid c (walks.validated_iff.mp read)
      rw [missing] at found
      cases found

theorem clean_marks {setup : Setup} {groups : List HeadMark}
    (walks : Walks setup.ipld blocks pins pins [] f)
    (same : ∀ p, p ∈ groups.flatMap HeadMark.pins ↔ p ∈ pins)
    (codecs : ∀ c, Found setup.ipld blocks pins c → c.codec = raw ∨ c.codec = dagCBOR)
    (clean : f.report.Clean) :
    ∃ bound, ∀ rounds : List Round,
      (∀ round ∈ rounds, round.store.blocks = blocks ∧ round.env.fails = false) →
      bound ≤ rounds.length → MarksAlone setup groups rounds := by
  have valid := walks.clean_iff.mp clean
  have found (c : Cid) (kept : Retained setup.ipld (groups.flatMap HeadMark.pins) c) :
      Found setup.ipld blocks pins c := by
    obtain ⟨p, member, covers⟩ := kept
    exact found_of_retained valid ⟨p, (same p).mp member, covers⟩
  refine Marking.mark_succeeds f.validated (fun c kept => walks.validated_iff.mpr (found c kept))
    fun c kept => ?_
  have reached := found c kept
  obtain ⟨data, stored, verified⟩ := valid c reached
  refine ⟨data, stored, verified, (codecs c reached).imp_right fun inner => ⟨inner, ?_⟩⟩
  have decodes := walks.accounts.decodes c (walks.validated_iff.mpr reached) inner
    ⟨data, stored, verified⟩
  simpa [kidsOf, inner, stored, verified] using decodes

/-- A mark that validates every read and succeeds without a fetch has met no bad block. -/
theorem marks_clean {setup : Setup} {groups : List HeadMark} {rounds : List Round}
    (walks : Walks setup.ipld blocks pins pins [] f) (off : setup.separateScrub = false)
    (same : ∀ p, p ∈ groups.flatMap HeadMark.pins ↔ p ∈ pins)
    (store : ∀ round ∈ rounds, round.store.blocks = blocks)
    (marks : MarksAlone setup groups rounds) : f.report.Clean := by
  obtain ⟨⟨marked, ran⟩, quiet⟩ := marks
  refine walks.clean_iff.mpr fun c found => ?_
  by_contra invalid
  have bad : ∀ round ∈ rounds, Bad setup round.store c := by
    intro round member data stored
    rw [store round member] at stored
    exact ⟨fun verified => invalid ⟨data, stored, verified⟩, fun _ => off⟩
  obtain ⟨p, member, covers⟩ := found.retained
  obtain ⟨g, inside, pinned⟩ := List.mem_flatMap.mp ((same p).mpr member)
  obtain ⟨lead, rest, rfl⟩ := List.append_of_mem inside
  have ahead : Marking.Ahead setup.ipld False c (lead ++ g :: rest) :=
    .of_append False.elim False.elim ⟨p, pinned, covers⟩
  exact Marking.owes_unfinished (Marking.start_owes ahead) bad quiet ran

end Agreement

/-! ### The repair -/

section Repairs
variable {env : Weather} {blocks : Blocks} {report : Report}

structure Repaired (env : Weather) (blocks : Blocks) (report : Report) (past : List Cid)
    (r : Repair) : Prop where
  scanned : r.report.scanned = report.scanned
  corrupt : r.report.corrupt = report.corrupt
  missing : r.report.missing = report.missing
  repaired : r.report.repaired = past.filter fun c => (env.deletes c).isNone
  deleteFailed : r.report.deleteFailed = past.filter fun c => (env.deletes c).isSome
  blocks : ∀ key, r.blocks key =
    if ∃ c ∈ past, c.hash = key ∧ env.deletes c ≠ some false then none else blocks key

theorem Repaired.delete {past : List Cid} {r : Repair} (c : Cid)
    (repaired : Repaired env blocks report past r) :
    Repaired env blocks report (past ++ [c]) (r.delete env c) := by
  obtain ⟨scanned, corrupt, missing, repaired, deleteFailed, after⟩ := repaired
  have erased (goes : env.deletes c ≠ some false) (key : Multihash) :
      Function.update r.blocks c.hash none key =
        if ∃ d ∈ past ++ [c], d.hash = key ∧ env.deletes d ≠ some false then none
        else blocks key := by
    by_cases same : key = c.hash
    · rw [same, Function.update_self, if_pos ⟨c, by simp, rfl, goes⟩]
    · rw [Function.update_of_ne same, after]
      have other : ¬ c.hash = key := fun same' => same same'.symm
      simp [other, or_and_right, exists_or]
  unfold Repair.delete
  cases outcome : env.deletes c with
  | none =>
    refine ⟨scanned, corrupt, missing, ?_, ?_, erased (by simp [outcome])⟩
    · simp [repaired, outcome]
    · simp [deleteFailed, outcome]
  | some gone =>
    refine ⟨scanned, corrupt, missing, ?_, ?_, ?_⟩
    · simp [repaired, outcome]
    · simp [deleteFailed, outcome]
    · cases gone with
      | true => exact erased (by simp [outcome])
      | false =>
        intro key
        have kept : ¬ (c.hash = key ∧ env.deletes c ≠ some false) := by simp [outcome]
        simp only [Bool.false_eq_true, if_false, after, List.mem_append, List.mem_singleton,
          or_and_right, exists_or, exists_eq_left, kept, or_false]

theorem repair_spec (cids : List Cid) {past : List Cid} {r : Repair}
    (repaired : Repaired env blocks report past r) :
    Repaired env blocks report (past ++ cids) (cids.foldl (Repair.delete env) r) := by
  induction cids generalizing past r with
  | nil => simpa using repaired
  | cons c rest ih =>
    have next := ih (repaired.delete c)
    rwa [List.append_assoc] at next

theorem repairAll_spec (env : Weather) (blocks : Blocks) (output : Output)
    (fresh : report.repaired = [] ∧ report.deleteFailed = []) :
    Repaired env blocks report report.corrupt
      ⟨(repairAll env blocks report output).blocks, (repairAll env blocks report output).report,
        output⟩ := by
  have start : Repaired env blocks report [] ⟨blocks, report, output⟩ := by
    constructor <;> simp [fresh]
  exact { repair_spec report.corrupt start with }

end Repairs

/-! ### The length of a walk -/

section Ends
variable {ipld : Codec} {blocks : Blocks} {env : Weather} {f f' : Fscker} {held : List Block}

theorem validate_error {c : Cid} {fault : Fault}
    (ran : f.validate ipld blocks env c = .error fault) : fault ≠ .unfinished := by
  unfold Fscker.validate at ran
  rintro rfl
  split at ran
  · cases ran
  · dsimp only at ran
    split at ran
    · cases ran
    · split at ran
      · cases ran
      · split at ran
        · split at ran
          · cases ran
          · split at ran <;> cases ran
        · cases ran

theorem scan_error {items : List (Cid × Bool)} {frontier : List Cid} {fault : Fault}
    (ran : f.scan ipld blocks env items frontier = .error fault) : fault ≠ .unfinished := by
  induction items generalizing frontier f with
  | nil => cases ran
  | cons item rest ih =>
    rw [Fscker.scan] at ran
    split at ran
    · rename_i validated
      cases ran
      exact validate_error validated
    · exact ih ran

variable (within : ∀ key data, blocks key = some data → data ∈ held)

include within in
/-- The links of a stored block are among those of all of them. -/
theorem kidsOf_within {c : Cid} {kids : List Cid} (known : kidsOf ipld blocks c = some kids) :
    kids.Sublist (Marking.linksOf ipld held) := by
  unfold kidsOf at known
  split at known
  · split at known
    · rename_i data found
      split at known
      · obtain ⟨node, decoded, rfl⟩ := Option.map_eq_some_iff.mp known
        exact Marking.links_sublist (within _ _ found) decoded
      · cases known
    · cases known
  · cases known

/-- A walk with this many polls comes to its end: each CID is expanded once. -/
theorem walk_ends {polls : List Bool} {frontier : List Cid} (known : Finset Cid) (width : Nat)
    (accounts : Accounts ipld blocks f) (inside : ∀ c ∈ frontier, c ∈ known)
    (closed : ∀ c kids, kidsOf ipld blocks c = some kids →
      kids.length ≤ width ∧ ∀ k ∈ kids, k ∈ known)
    (long : (known \ f.expanded).card * (width + 1) + frontier.length ≤ polls.length) :
    f.walk ipld blocks env polls frontier ≠ .error .unfinished := by
  induction polls generalizing frontier f with
  | nil =>
    cases frontier with
    | nil => simp [Fscker.walk]
    | cons => simp at long
  | cons cancelled polls ih =>
    cases frontier with
    | nil => simp [Fscker.walk]
    | cons c rest =>
      rw [List.forall_mem_cons] at inside
      rw [List.length_cons, List.length_cons] at long
      rw [Fscker.walk]
      split
      · simp
      · split
        · exact ih accounts inside.2 (by omega)
        · rename_i fresh
          split
          · rename_i scan
            exact fun same => scan_error scan (Except.error.inj same)
          · rename_i frontier' next scan
            obtain ⟨accounts', -, expanded, queued, length⟩ :=
              scan_spec accounts.expand scan
            -- The links are those of the block, or none.
            have kids : ((f.links c).getD []).length ≤ width ∧
                ∀ k ∈ (f.links c).getD [], k ∈ known := by
              rw [accounts.links]
              cases some : (if c ∈ f.validated then kidsOf ipld blocks c else none) with
              | none => simp
              | some kids =>
                split at some
                · exact closed c kids some
                · cases some
            have less : (known \ insert c f.expanded).card + 1 = (known \ f.expanded).card := by
              rw [Finset.sdiff_insert]
              exact Finset.card_erase_add_one (Finset.mem_sdiff.mpr ⟨inside.1, fresh⟩)
            refine ih accounts' (fun d waiting => ?_) ?_
            · rcases (queued d).mp waiting with old | ⟨new, -⟩
              · exact inside.2 d old
              · obtain ⟨k, kid, same⟩ := List.mem_map.mp new
                cases same
                exact kids.2 d kid
            · rw [expanded]
              rw [← less, Nat.add_mul] at long
              rw [List.length_map] at length
              have short := kids.1
              dsimp only
              omega

def budget (ipld : Codec) (held : List Block) (pins : List Pin) : Nat :=
  (pins.map Pin.cid ++ Marking.linksOf ipld held).toFinset.card *
    ((Marking.linksOf ipld held).length + 1) + pins.length

include within

theorem walkHeads_ends {heads : List Head} {pins past : List Pin}
    (walks : Walks ipld blocks pins past [] f)
    (part : ∀ head ∈ heads, ∀ more ∈ head.pins,
      more.Sublist pins ∧ budget ipld held pins ≤ head.polls.length) :
    f.walkHeads env ipld blocks heads ≠ .error .unfinished := by
  induction heads generalizing f past with
  | nil => simp [Fscker.walkHeads]
  | cons head rest ih =>
    rw [List.forall_mem_cons] at part
    rw [Fscker.walkHeads]
    split
    · simp
    · rename_i more listed
      obtain ⟨sub, long⟩ := part.1 more listed
      split
      · rename_i fault walked
        rintro ⟨⟩
        unfold Fscker.walkPins at walked
        split at walked
        · rename_i scan
          cases walked
          exact scan_error scan rfl
        · rename_i frontier next scan
          have scanned := scan_spec walks.accounts scan
          let known := (pins.map Pin.cid ++ Marking.linksOf ipld held).toFinset
          refine walk_ends known (Marking.linksOf ipld held).length scanned.accounts (fun c waiting => ?_)
            (fun c kids some => ?_) ?_ walked
          · obtain ⟨item, -⟩ := ((scanned.queued c).mp waiting).resolve_left (by simp)
            obtain ⟨p, member, same⟩ := List.mem_map.mp item
            simp only [known, List.mem_toFinset, List.mem_append]
            exact .inl (List.mem_map.mpr ⟨p, sub.subset member, congrArg Prod.fst same⟩)
          · have links := kidsOf_within within some
            refine ⟨links.length_le, fun k kid => ?_⟩
            simp only [known, List.mem_toFinset, List.mem_append]
            exact .inr (links.subset kid)
          · have fewer := Finset.card_le_card (Finset.sdiff_subset (s := known) (t := next.expanded))
            have short := scanned.length
            have many := sub.length_le
            rw [List.length_map, List.length_nil] at short
            have scaled := Nat.mul_le_mul_right ((Marking.linksOf ipld held).length + 1) fewer
            change known.card * _ + _ ≤ _ at long
            omega
      · rename_i next walked
        exact ih (walkPins_spec sub.subset walks walked) part.2

end Ends

section Runs
variable {ipld : Codec} {blocks : Blocks} {env : Weather} {heads : List Head} {repair : Bool}

theorem writeAll_iff {lines : List Line} {o : Output} :
    (o.writeAll env lines).1 = true ↔
      ∀ n < lines.length, env.writes (o.tried + n) = false := by
  induction lines generalizing o with
  | nil => simp [Output.writeAll]
  | cons line rest ih =>
    rw [Output.writeAll, List.length_cons, Nat.forall_lt_succ_left]
    by_cases fails : env.writes o.tried = true
    · simp [fails]
    · rw [if_neg fails, ih]
      rw [Bool.not_eq_true] at fails
      have tried : (o.write env line).tried = o.tried + 1 := by simp [Output.write, fails]
      simp [fails, tried, Nat.add_assoc, Nat.add_comm 1]

theorem fsckCore_fine (fine : (fsckCore env ipld blocks heads repair).fault = none) :
    ∃ f, Walks ipld blocks (pinsOf heads) (pinsOf heads) [] f ∧
      Repaired env blocks f.report (if repair then f.report.corrupt else [])
        ⟨(fsckCore env ipld blocks heads repair).blocks,
          (fsckCore env ipld blocks heads repair).report, ⟨[], 0, 0⟩⟩ := by
  unfold fsckCore at fine ⊢
  dsimp only at fine ⊢
  split at fine
  · cases fine
  · rename_i f ran
    have walks : Walks ipld blocks (pinsOf heads) (pinsOf heads) [] f := by
      simpa using walkHeads_spec (List.Subset.refl _) (new_walks _) ran
    refine ⟨f, walks, ?_⟩
    split at fine
    · cases fine
    · rename_i output written
      split at fine
      · cases fine
      · rename_i flushed
        simp only [flushed]
        cases repair with
        | true => exact { repairAll_spec env blocks output walks.accounts.fresh with }
        | false =>
          have fresh := walks.accounts.fresh
          constructor <;> simp [fresh]

theorem fsckCore_faulted (fault : (fsckCore env ipld blocks heads repair).fault ≠ none) :
    (fsckCore env ipld blocks heads repair).report = .empty ∧
      (fsckCore env ipld blocks heads repair).blocks = blocks := by
  unfold fsckCore at fault ⊢
  dsimp only at fault ⊢
  split
  · exact ⟨rfl, rfl⟩
  · rename_i f ran
    simp only [ran] at fault
    split
    · exact ⟨rfl, rfl⟩
    · rename_i output written
      simp only [written] at fault
      split
      · exact ⟨rfl, rfl⟩
      · rename_i flushed
        rw [if_neg flushed] at fault
        split at fault <;> exact absurd rfl fault

theorem fsckCore_unwritten {f : Fscker} (walked : Fscker.new.walkHeads env ipld blocks heads = .ok f)
    (fails : (∃ n < f.report.discovery.length, env.writes n = true) ∨ env.flushes.1 = true) :
    (fsckCore env ipld blocks heads repair).fault ≠ none := by
  unfold fsckCore
  simp only [walked]
  split
  · simp
  · rename_i output written
    have all := writeAll_iff.mp (congrArg Prod.fst written)
    rcases fails with ⟨n, inside, fails⟩ | fails
    · have well := all n inside
      simp [fails] at well
    · simp [fails]

theorem fsckCore_inventory (fine : (fsckCore env ipld blocks heads repair).fault = none) :
    Inventory ipld blocks (pinsOf heads) (fsckCore env ipld blocks heads repair).report := by
  obtain ⟨f, walks, repaired⟩ := fsckCore_fine fine
  obtain ⟨-, corrupt, missing, -⟩ := repaired
  dsimp only at corrupt missing
  constructor
  · intro c
    rw [corrupt, walks.accounts.corrupt, walks.validated_iff]
  · intro c
    rw [missing, walks.accounts.missing, walks.validated_iff]
  · rw [corrupt]
    exact walks.accounts.corrupt_once
  · rw [missing]
    exact walks.accounts.missing_once

theorem Inventory.perm {pins pins' : List Pin} {report report' : Report}
    (inventory : Inventory ipld blocks pins report)
    (inventory' : Inventory ipld blocks pins' report') (same : ∀ p, p ∈ pins ↔ p ∈ pins') :
    report.corrupt.Perm report'.corrupt ∧ report.missing.Perm report'.missing := by
  have found (c : Cid) : Found ipld blocks pins c ↔ Found ipld blocks pins' c := by
    simp only [Found, same]
  constructor
  · refine (List.perm_ext_iff_of_nodup inventory.corrupt_once inventory'.corrupt_once).mpr ?_
    intro c
    rw [inventory.corrupt, inventory'.corrupt, found]
  · refine (List.perm_ext_iff_of_nodup inventory.missing_once inventory'.missing_once).mpr ?_
    intro c
    rw [inventory.missing, inventory'.missing, found]

/-- Deleting corrupt blocks hides nothing: no valid block has the hash of a corrupt one. -/
theorem Found.erased {after : Blocks} {pins : List Pin} {c : Cid}
    (erased : ∀ key, after key ≠ blocks key → ∃ d, d.hash = key ∧ Corrupt ipld blocks d)
    (found : Found ipld blocks pins c) : Found ipld after pins c := by
  have keeps : Leads ipld blocks ≤ Leads ipld after := by
    rintro a b ⟨⟨data, stored, verified⟩, link⟩
    refine ⟨⟨data, ?_, verified⟩, link⟩
    by_contra changed
    obtain ⟨d, same, data', stored', refuted⟩ := erased a.hash (by rwa [stored])
    rw [same, stored] at stored'
    cases stored'
    apply refuted
    simpa [Codec.Verifies, Codec.sum, same] using verified
  obtain ⟨p, member, covers⟩ := found
  exact ⟨p, member, covers_mono keeps covers⟩

end Runs

/-- A run of fsck without a fatal error lists exactly the corrupt and the missing blocks
that are pinned or reached through valid ones, each once and in any order of the pins.
Its report is clean just when the collector's mark of the same pins succeeds without a
fetch. A repair deletes the corrupt ones and nothing else, and the next run finds them
missing. After a fatal error, a failure to write or flush the inventory included, nothing
has been deleted. -/
theorem fsck_agrees (setup : Setup) (env : Weather) (blocks : Blocks) (heads : List Head)
    (repair : Bool) {outcome : Outcome} (ran : fsckCore env setup.ipld blocks heads repair = outcome) :
    (outcome.fault = none →
      Inventory setup.ipld blocks (pinsOf heads) outcome.report ∧
      (∀ env' heads' repair', (∀ p, p ∈ pinsOf heads' ↔ p ∈ pinsOf heads) →
        ∀ outcome', fsckCore env' setup.ipld blocks heads' repair' = outcome' →
        outcome'.fault = none →
        outcome'.report.corrupt.Perm outcome.report.corrupt ∧
          outcome'.report.missing.Perm outcome.report.missing) ∧
      (∀ groups : List HeadMark, setup.separateScrub = false →
        (∀ p, p ∈ groups.flatMap HeadMark.pins ↔ p ∈ pinsOf heads) →
        (∀ c, Found setup.ipld blocks (pinsOf heads) c → c.codec = raw ∨ c.codec = dagCBOR) →
        (outcome.report.Clean →
          ∃ bound, ∀ rounds : List Round,
            (∀ round ∈ rounds, round.store.blocks = blocks ∧ round.env.fails = false) →
            bound ≤ rounds.length → MarksAlone setup groups rounds) ∧
        ∀ rounds : List Round, (∀ round ∈ rounds, round.store.blocks = blocks) →
          MarksAlone setup groups rounds → outcome.report.Clean) ∧
      (repair = false → outcome.blocks = blocks) ∧
      (repair = true →
        outcome.report.repaired =
          outcome.report.corrupt.filter (fun c => (env.deletes c).isNone) ∧
        outcome.report.deleteFailed =
          outcome.report.corrupt.filter (fun c => (env.deletes c).isSome) ∧
        (∀ key, outcome.blocks key =
          if ∃ c ∈ outcome.report.corrupt, c.hash = key ∧ env.deletes c ≠ some false then none
          else blocks key) ∧
        ∀ env' heads' repair', (∀ p, p ∈ pinsOf heads' ↔ p ∈ pinsOf heads) →
          ∀ outcome', fsckCore env' setup.ipld outcome.blocks heads' repair' = outcome' →
          outcome'.fault = none →
          ∀ c ∈ outcome.report.repaired, c ∈ outcome'.report.missing)) ∧
    (outcome.fault ≠ none → outcome.report = .empty ∧ outcome.blocks = blocks) ∧
    ∀ f, Fscker.new.walkHeads env setup.ipld blocks heads = .ok f →
      (∃ n < f.report.discovery.length, env.writes n = true) ∨ env.flushes.1 = true →
      outcome.fault ≠ none := by
  subst ran
  refine ⟨fun fine => ?_, fsckCore_faulted, fun f walked fails => fsckCore_unwritten walked fails⟩
  obtain ⟨f, walks, repaired⟩ := fsckCore_fine fine
  have inventory := fsckCore_inventory fine
  have clean : (fsckCore env setup.ipld blocks heads repair).report.Clean ↔ f.report.Clean := by
    unfold Report.Clean
    rw [repaired.corrupt, repaired.missing]
  refine ⟨inventory, ?_, ?_, ?_, ?_⟩
  · rintro env' heads' repair' same outcome' rfl fine'
    exact (fsckCore_inventory fine').perm inventory same
  · intro groups off same codecs
    refine ⟨fun isClean => clean_marks walks same codecs (clean.mp isClean), ?_⟩
    exact fun rounds store marks => clean.mpr (marks_clean walks off same store marks)
  · rintro rfl
    funext key
    simpa using repaired.blocks key
  · rintro rfl
    have after (key : Multihash) : (fsckCore env setup.ipld blocks heads true).blocks key =
        if ∃ c ∈ f.report.corrupt, c.hash = key ∧ env.deletes c ≠ some false then none
        else blocks key := repaired.blocks key
    rw [repaired.corrupt]
    refine ⟨repaired.repaired, repaired.deleteFailed, after, ?_⟩
    rintro env' heads' repair' same outcome' rfl fine' c member
    rw [repaired.repaired] at member
    obtain ⟨listed, deleted⟩ := List.mem_filter.mp member
    rw [Option.isNone_iff_eq_none] at deleted
    refine ((fsckCore_inventory fine').missing c).mpr ⟨?_, ?_⟩
    · have found := ((inventory.corrupt c).mp (repaired.corrupt ▸ listed)).1
      have erased (key : Multihash)
          (changed : (fsckCore env setup.ipld blocks heads true).blocks key ≠ blocks key) :
          ∃ d, d.hash = key ∧ Corrupt setup.ipld blocks d := by
        rw [after] at changed
        split at changed
        · rename_i gone
          obtain ⟨d, inside, same, -⟩ := gone
          exact ⟨d, same, ((walks.accounts.corrupt d).mp inside).2⟩
        · exact absurd rfl changed
      obtain ⟨p, inside, covers⟩ := found.erased erased
      exact ⟨p, (same p).mpr inside, covers⟩
    · rw [after, if_pos ⟨c, listed, rfl, by simp [deleted]⟩]

section Sample

def calm : Weather := ⟨fun _ => false, fun _ => false, (false, false), fun _ => none⟩

def sampleHeads : List Head :=
  [⟨"mainnet", some [⟨.other "blob", DagCbor.codec.sum raw sampleData, false⟩], []⟩]

def corruptBlocks : Blocks :=
  Function.update (fun _ => none) (DagCbor.codec.sum raw sampleData).hash (some [])

theorem fsck_agrees_sample : ∃ outcome, fsckCore calm DagCbor.codec corruptBlocks sampleHeads true =
      outcome ∧ outcome.fault = none ∧ Inventory DagCbor.codec corruptBlocks (pinsOf sampleHeads)
        outcome.report ∧ outcome.report.repaired = [DagCbor.codec.sum raw sampleData] ∧
      DagCbor.codec.sum raw sampleData ∈
        (fsckCore calm DagCbor.codec outcome.blocks sampleHeads false).report.missing := by
  have fine : (fsckCore calm DagCbor.codec corruptBlocks sampleHeads true).fault = none := by
    decide
  have repaired : (fsckCore calm DagCbor.codec corruptBlocks sampleHeads true).report.repaired =
      [DagCbor.codec.sum raw sampleData] := by decide
  have again : (fsckCore calm DagCbor.codec
      (fsckCore calm DagCbor.codec corruptBlocks sampleHeads true).blocks sampleHeads
      false).fault = none := by decide
  obtain ⟨inventory, -, -, -, repairs⟩ :=
    (fsck_agrees sampleSetup calm corruptBlocks sampleHeads true rfl).1 fine
  obtain ⟨-, -, -, finds⟩ := repairs rfl
  refine ⟨_, rfl, fine, inventory, repaired, ?_⟩
  exact finds calm sampleHeads false (fun _ => Iff.rfl) _ rfl again _
    (repaired ▸ List.mem_singleton_self _)

end Sample

end Bloar.Fsck
