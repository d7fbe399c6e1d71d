import StackLift.Proofs.Source.Operands

/-!
# Lifting compiled expressions

Lifting the code of an expression loads its value on the branch on which the code
starts.  This is shown by induction on the expression.  The code of a choice is
lifted arm by arm: the first arm on the same branch, the second one on a branch of
its own, which has ended where the choice ends.
-/

namespace StackLift

/-- What a draft has gained: producers, phi sets, expressions that wait, and
statements. -/
structure Draft.Gains (later earlier : Draft) (code : List Instruction) (start : Nat)
    (notes : List (Address × List Address)) (joins : List (Address × Phi))
    (entries : Pending) (statements : List Expr) : Prop where
  follows : later.listing.Follows earlier.listing code start notes joins
  pending : later.pending.Perm (entries ++ earlier.pending)
  roots : later.roots = statements.reverse ++ earlier.roots

namespace Draft.Gains

variable {last middle first : Draft} {code : List Instruction} {start between : Nat}
  {notes moreNotes : List (Address × List Address)} {joins moreJoins : List (Address × Phi)}
  {entries moreEntries : Pending} {statements moreStatements : List Expr}

theorem trans (hfirst : middle.Gains first code start notes joins entries statements)
    (hsecond : last.Gains middle code between moreNotes moreJoins moreEntries moreStatements)
    (hle : start ≤ between) (hnotes : ∀ entry ∈ notes, entry.1.toNat < between) :
    last.Gains first code start (notes ++ moreNotes) (joins ++ moreJoins)
      (moreEntries ++ entries) (statements ++ moreStatements) where
  follows := hfirst.follows.trans hsecond.follows hle hnotes
  pending := by
    rw [List.append_assoc]
    exact hsecond.pending.trans (hfirst.pending.append_left _)
  roots := by
    rw [hsecond.roots, hfirst.roots, List.reverse_append, List.append_assoc]

theorem congr (hgains : last.Gains first code start notes joins entries statements)
    (hnotes : ∀ entry ∈ moreNotes, entry ∈ notes)
    (hjoins : ∀ entry, entry ∈ joins ↔ entry ∈ moreJoins) (hentries : entries.Perm moreEntries)
    (hstatements : statements = moreStatements) :
    last.Gains first code start moreNotes moreJoins moreEntries moreStatements where
  follows := hgains.follows.congr hnotes hjoins
  pending := hgains.pending.trans (hentries.append_right _)
  roots := hstatements ▸ hgains.roots

end Draft.Gains

/-- The walk has come to a part of the code, in which no branch of the engine ends. -/
structure Start (code : List Instruction) (first : Nat)
    (before part after : List Instruction) (start horizon : Nat) (engine base : Engine)
    (draft : Draft) : Prop where
  site : Site code first before part after start
  holdsVisited : draft.HoldsVisited engine code before
  advance : engine.advance (.ofNat start) = (base, .ok ())
  ready : base.Ready start horizon
  links : draft.listing.LinksAfterEnds code

namespace Start

variable {code before part after : List Instruction} {first start horizon : Nat}
  {engine base : Engine} {draft : Draft}

theorem tracks (hstart : Start code first before part after start horizon engine base draft) :
    base.Tracks draft.listing code before := by
  have htracks := hstart.holdsVisited.tracks.advance (.ofNat start)
  rw [hstart.advance] at htracks
  exact htracks

theorem holdsVisited_visitAll
    (hstart : Start code first before part after start horizon engine base draft)
    (hlaid : Laid code first) {walked : Engine} {final : Draft}
    (hvisit : engine.visitAll draft part = (walked, .ok final)) :
    final.HoldsVisited walked code (before ++ part) :=
  hstart.holdsVisited.of_visitAll hlaid.checked hstart.site.split hvisit

/-- Behind a part that leaves nothing the walk is ready for the next part. -/
theorem next (hstart : Start code first before part after start horizon engine base draft)
    (hlaid : Laid code first) {middle next later : List Instruction} {offset : Nat}
    {nextId : BranchId} {final : Draft} {cursor : Address}
    (hvisit : engine.visitAll draft part = (base.moveTo cursor nextId, .ok final))
    (hcursor : start ≤ cursor.toNat) (hoffset : start ≤ offset) (hhorizon : offset < horizon)
    (hbound : offset ≤ Address.last.toNat) (hlinks : final.listing.LinksAfterEnds code)
    (hmiddle : before ++ part = middle) (hsite : Site code first middle next later offset) :
    Start code first middle next later offset horizon (base.moveTo cursor nextId)
      (base.moveTo (.ofNat offset) nextId) final := by
  have hholds := hstart.holdsVisited_visitAll hlaid hvisit
  rw [hmiddle] at hholds
  have htoNat := Address.toNat_ofNat hbound
  have hready := hstart.ready.moveTo hcursor hholds.tracks.ordered hholds.tracks.settled
  have hadvance := Engine.advance_ready hready (htoNat.symm ▸ hhorizon)
  have htracks := hholds.tracks.advance (.ofNat offset)
  rw [hadvance] at htracks
  have hnext := hstart.ready.moveTo (htoNat.symm ▸ hoffset) htracks.ordered htracks.settled
  rw [htoNat] at hnext
  exact ⟨hsite, hholds, hadvance, hnext, hlinks⟩

end Start

namespace Source

/-- Lifting the code of an expression loads its value. -/
def Runs (code : List Instruction) (first : Nat) (source : Source) : Prop :=
  ∀ before after start horizon engine base draft,
    Start code first before (source.code start) after start horizon engine base draft →
    start + source.size ≤ horizon →
    ∃ final arms nextId active,
      engine.visitAll draft (source.code start) =
        (((base.load (source.value start) arms).moveTo
          (.ofNat (start + source.size - 1)) nextId).resume active, .ok final) ∧
      Engine.Arms base.active (source.closedValues start) (start + source.size) arms ∧
      Engine.Tail (.ofNat (start + source.size)) base.active arms active ∧
      final.Gains draft code start (source.notes start) (source.joins start)
        (source.entries start) (source.statements start)

variable {code before after : List Instruction} {first start horizon : Nat}
  {engine base : Engine} {draft : Draft}

/-- Behind the code of an expression the walk goes on where it started. -/
theorem start_behind {source : Source} (hlaid : Laid code first)
    (hstart : Start code first before (source.code start) after start horizon engine base draft)
    (hhorizon : start + source.size < horizon) {final : Draft} {arms : List Branch}
    {nextId active : BranchId}
    (hvisit : engine.visitAll draft (source.code start) =
      (((base.load (source.value start) arms).moveTo
        (.ofNat (start + source.size - 1)) nextId).resume active, .ok final))
    (harms : Engine.Arms base.active (source.closedValues start) (start + source.size) arms)
    (htail : Engine.Tail (.ofNat (start + source.size)) base.active arms active)
    (hlinks : final.listing.LinksAfterEnds code) {next later : List Instruction}
    (hsite : Site code first (before ++ source.code start) next later (start + source.size)) :
    Start code first (before ++ source.code start) next later (start + source.size) horizon
      (((base.load (source.value start) arms).moveTo
        (.ofNat (start + source.size - 1)) nextId).resume active)
      ((base.load (source.value start) arms).moveTo (.ofNat (start + source.size)) nextId)
      final := by
  have hstop := hstart.site.stop_le
  have hbound := hlaid.bound
  rw [length_code] at hstop
  have htoNat : (Address.ofNat (start + source.size)).toNat = start + source.size :=
    Address.toNat_ofNat (by omega)
  have hholds := hstart.holdsVisited_visitAll hlaid hvisit
  have hended : Engine.Arms base.active (source.closedValues start)
      (Address.ofNat (start + source.size)).toNat arms := by
    rw [htoNat]
    exact harms
  have hadvance := Engine.advance_load hstart.ready (by omega) hended htail
    hholds.tracks.ordered
  have htracks := hholds.tracks.advance (.ofNat (start + source.size))
  rw [hadvance] at htracks
  have hready := hstart.ready.load (by omega) hended htracks.ordered htracks.settled
  rw [htoNat] at hready
  exact ⟨hsite, hholds, hadvance, hready, hlinks⟩

theorem lt_of_mem_notesAll {args : List Source}
    (hargs : ∀ arg ∈ args, ∀ start, ∀ entry ∈ arg.notes start,
      entry.1.toNat < start + arg.size)
    {start : Nat} {entry : Address × List Address} (hentry : entry ∈ notesAll args start) :
    entry.1.toNat < start + sizeAll args := by
  induction args generalizing start with
  | nil =>
      rw [notesAll] at hentry
      cases hentry
  | cons arg rest ih =>
      rw [notesAll] at hentry
      rw [sizeAll]
      rcases List.mem_append.1 hentry with hentry | hentry
      · have hlt := hargs arg List.mem_cons_self start entry hentry
        omega
      · have hlt := ih (fun other hother => hargs other (List.mem_cons_of_mem _ hother)) hentry
        omega

/-- Producers are noted for instructions of the code only. -/
theorem lt_of_mem_notes (source : Source) (start : Nat) :
    ∀ entry ∈ source.notes start, entry.1.toNat < start + source.size := by
  induction source using Source.induction generalizing start with
  | apply opcode operand args hargs =>
      intro entry hentry
      rw [notes] at hentry
      rw [size]
      rcases List.mem_append.1 hentry with hentry | hentry
      · have hlt := lt_of_mem_notesAll hargs hentry
        omega
      · rw [List.mem_singleton.1 hentry]
        exact Nat.lt_succ_of_le (Address.toNat_ofNat_le (start + sizeAll args))
  | cond test yes no htest hyes hno =>
      intro entry hentry
      rw [notes] at hentry
      rw [size]
      rcases List.mem_append.1 hentry with hentry | hentry
      · rcases List.mem_append.1 hentry with hentry | hentry
        · have hlt := htest start entry hentry
          omega
        · have hlt := hyes _ entry hentry
          omega
      · have hlt := hno _ entry hentry
        omega

/-- The operands have been lifted and can be popped. -/
structure Supplied (args : List Source) (code before : List Instruction) (start : Nat)
    (engine base : Engine) (draft : Draft) (stopped : Engine) (walked : Draft)
    (merged : Listing) (nextId : BranchId) : Prop where
  visit : engine.visitAll draft (codeAll args start) = (stopped, .ok walked)
  pops : ∃ loaded, stopped.advance (.ofNat (start + sizeAll args)) = (loaded, .ok ()) ∧
    ∀ taken, loaded.popSlots walked.listing args.length taken =
      (base.moveTo (.ofNat (start + sizeAll args)) nextId, merged,
        .ok (slots args start ++ taken))
  tracks : (base.moveTo (.ofNat (start + sizeAll args)) nextId).Tracks merged code
    (before ++ codeAll args start)
  pending : walked.pending.Perm (entriesAll args start ++ draft.pending)
  roots : walked.roots = (statementsAll args start).reverse ++ draft.roots
  follows : merged.Follows draft.listing code start (notesAll args start)
    (joinsAll args start)

theorem supplied_nil
    (hstart : Start code first before [] after start horizon engine base draft) :
    Supplied [] code before start engine base draft engine draft draft.listing base.nextId := by
  have hcursor : base.cursor = .ofNat start := by
    rw [← hstart.ready.cursor, Address.ofNat_toNat]
  have hmoved : base.moveTo (.ofNat (start + sizeAll [])) base.nextId = base := by
    rw [sizeAll, Nat.add_zero, ← hcursor]
    rfl
  refine ⟨?_, ⟨base, hstart.advance, ?_⟩, ?_, ?_, ?_, ?_⟩
  · rw [codeAll, Engine.visitAll]
  · intro taken
    rw [hmoved, slots]
    rfl
  · rw [hmoved, codeAll, List.append_nil]
    exact hstart.tracks
  · rw [entriesAll, List.nil_append]
  · rw [statementsAll]
    rfl
  · rw [notesAll, joinsAll]
    exact .refl hstart.links start

/-- An operand is loaded before the others, and popped after them. -/
theorem supplied_cons {arg : Source} {rest : List Source} {final walked : Draft}
    {arms : List Branch} {middle stopped : Engine} {merged attached : Listing}
    {loadId nextId : BranchId}
    (hvisit : engine.visitAll draft (arg.code start) = (middle, .ok final))
    (hgains : final.Gains draft code start (arg.notes start) (arg.joins start)
      (arg.entries start) (arg.statements start))
    (hsupplied : Supplied rest code (before ++ arg.code start) (start + arg.size) middle
      ((base.load (arg.value start) arms).moveTo (.ofNat (start + arg.size)) loadId) final
      stopped walked merged nextId)
    (hpop : ((base.load (arg.value start) arms).moveTo
        (.ofNat (start + arg.size + sizeAll rest)) nextId).pop merged =
      (base.moveTo (.ofNat (start + arg.size + sizeAll rest)) nextId, attached,
        .ok (arg.slot start)))
    (htracks : (base.moveTo (.ofNat (start + arg.size + sizeAll rest)) nextId).Tracks attached
      code (before ++ arg.code start ++ codeAll rest (start + arg.size)))
    (hown : ∀ offset, attached.Follows merged code offset [] (arg.ownJoin start)) :
    Supplied (arg :: rest) code before start engine base draft stopped walked attached
      nextId := by
  obtain ⟨loaded, hadvance, hpops⟩ := hsupplied.pops
  have hfollows := hgains.follows.trans hsupplied.follows (Nat.le_add_right _ _)
    (arg.lt_of_mem_notes start)
  refine ⟨?_, ⟨loaded, ?_, ?_⟩, ?_, ?_, ?_, ?_⟩
  · rw [codeAll, Engine.visitAll_append hvisit]
    exact hsupplied.visit
  · rw [sizeAll, ← Nat.add_assoc]
    exact hadvance
  · intro taken
    rw [List.length_cons, Engine.popSlots_add (hpops taken), slots, sizeAll, ← Nat.add_assoc]
    exact Engine.popSlots_one hpop _
  · rw [sizeAll, ← Nat.add_assoc, codeAll, ← List.append_assoc]
    exact htracks
  · refine hsupplied.pending.trans ((hgains.pending.append_left _).trans ?_)
    rw [entriesAll, ← List.append_assoc]
    exact List.perm_append_comm.append_right _
  · rw [hsupplied.roots, hgains.roots, statementsAll, List.reverse_append, List.append_assoc]
  · rw [← notesAll] at hfollows
    have hall := hfollows.trans (hown (start + sizeAll (arg :: rest))) (Nat.le_add_right _ _)
      fun entry hentry => lt_of_mem_notesAll (fun other _ => other.lt_of_mem_notes) hentry
    rw [joinsAll]
    refine hall.congr (fun _ hentry => List.mem_append_left _ hentry) fun entry => ?_
    simp only [List.mem_append]
    tauto

/-- Operands are lifted one after the other, and popped from the last to the first. -/
theorem run_args (hlaid : Laid code first) (args : List Source)
    (hruns : ∀ arg ∈ args, Runs code first arg) (hfits : ∀ arg ∈ args, arg.fits = true)
    (hstart : Start code first before (codeAll args start) after start horizon engine base
      draft)
    (hafter : after ≠ []) (hhorizon : start + sizeAll args < horizon) :
    ∃ stopped walked merged nextId,
      Supplied args code before start engine base draft stopped walked merged nextId := by
  induction args generalizing before start engine base draft with
  | nil =>
      rw [codeAll] at hstart
      exact ⟨engine, draft, draft.listing, base.nextId, supplied_nil hstart⟩
  | cons arg rest ih =>
      have harg := hfits arg List.mem_cons_self
      have hrest : ∀ other ∈ rest, other.fits = true :=
        fun other hother => hfits other (List.mem_cons_of_mem _ hother)
      have hhead := site_head hlaid hrest hstart.site
      have hfirst : Start code first before (arg.code start)
          (codeAll rest (start + arg.size) ++ after) start horizon engine base draft :=
        ⟨hhead, hstart.holdsVisited, hstart.advance, hstart.ready, hstart.links⟩
      have hbound := hlaid.bound
      have hlength := hstart.site.stop_le
      rw [length_codeAll fun other _ => other.length_code, sizeAll] at hlength
      rw [sizeAll] at hhorizon
      obtain ⟨final, arms, loadId, active, hvisit, harms, htail, hgains⟩ :=
        hruns arg List.mem_cons_self before _ start horizon engine base draft hfirst (by omega)
      have hnext := start_behind hlaid hfirst (by omega) hvisit harms htail
        hgains.follows.links (site_tail hlaid harg hstart.site)
      obtain ⟨stopped, walked, merged, nextId, hsupplied⟩ :=
        ih (fun other hother => hruns other (List.mem_cons_of_mem _ hother)) hrest hnext
          (by omega)
      have hfollows := hgains.follows.trans hsupplied.follows (Nat.le_add_right _ _)
        (arg.lt_of_mem_notes start)
      obtain ⟨instruction, remaining, hcons⟩ := List.exists_cons_of_ne_nil hafter
      have hsplit : code = before ++ arg.code start ++ codeAll rest (start + arg.size) ++
          instruction :: remaining := by
        rw [hstart.site.split, codeAll, hcons]
        simp only [List.append_assoc]
      obtain ⟨attached, hpop, htracks, hown⟩ := pop_operand hlaid harg hhead
        (by simp [hafter]) hstart.ready
        (by rw [Address.toNat_ofNat (by omega)]; omega)
        (by rw [Address.toNat_ofNat (by omega)]; omega) harms hsupplied.tracks hsplit
        (fun entry hentry => hfollows.noted entry (List.mem_append_left _ hentry))
        hfollows.links
      exact ⟨stopped, walked, attached, nextId,
        supplied_cons hvisit hgains hsupplied hpop htracks hown⟩

/-- The tree of an instruction whose operands are expressions. -/
def instructionTree (instruction : Instruction) (args : List Source) (start : Nat) : Expr :=
  .op instruction.address instruction.opcode instruction.operand (trees args start)

/-- An instruction that does not fork takes the trees of its operands. -/
theorem run_instruction (hlaid : Laid code first) {args : List Source}
    {instruction : Instruction} (hruns : ∀ arg ∈ args, Runs code first arg)
    (hfits : ∀ arg ∈ args, arg.fits = true)
    (hstart : Start code first before (codeAll args start ++ [instruction]) after start
      horizon engine base draft)
    (haddress : instruction.address = .ofNat (start + sizeAll args))
    (hpops : instruction.pops = args.length)
    (htarget : ∀ target, instruction.jumpTarget? = some target →
      start + sizeAll args ≤ target.toNat)
    (hfork : ∀ listing : Listing, listing.Indexes code →
      Engine.forkTarget? listing instruction.address = none)
    (hhorizon : start + sizeAll args < horizon) :
    ∃ final nextId,
      engine.visitAll draft (codeAll args start ++ [instruction]) =
        (if 0 < instruction.pushes then
            (base.moveTo (.ofNat (start + sizeAll args)) nextId).push instruction.address
          else base.moveTo (.ofNat (start + sizeAll args)) nextId, .ok final) ∧
      final.Gains draft code start
        (notesAll args start ++ [(instruction.address, values args start)])
        (joinsAll args start)
        (if 0 < instruction.pushes then
            [(instruction.address, instructionTree instruction args start)] else [])
        (statementsAll args start ++ if 0 < instruction.pushes then []
            else [instructionTree instruction args start]) := by
  have hstop := hstart.site.stop_le
  have hbound := hlaid.bound
  rw [List.length_append, length_codeAll fun other _ => other.length_code,
    List.length_singleton] at hstop
  have hargs : Start code first before (codeAll args start) (instruction :: after) start
      horizon engine base draft :=
    ⟨site_args htarget hstart.site, hstart.holdsVisited, hstart.advance, hstart.ready, hstart.links⟩
  obtain ⟨stopped, walked, merged, nextId, hsupplied⟩ :=
    run_args hlaid args hruns hfits hargs (List.cons_ne_nil _ _) hhorizon
  obtain ⟨loaded, hadvance, hpopped⟩ := hsupplied.pops
  have hholds := hargs.holdsVisited_visitAll hlaid hsupplied.visit
  have hdistinct : (walked.pending.map Prod.fst).Nodup :=
    hholds.held.nodup_iff.2 hholds.tracks.distinct
  obtain ⟨left, htake, hleft⟩ := takeOperands_eq_trees instruction.address args start
    (fun entry hentry => (hsupplied.follows.phis _ _).2 (Or.inl hentry)) hdistinct
    hsupplied.pending
  have hinstruction : instruction ∈ code :=
    hstart.site.mem_of_mem (List.mem_append_right _ (List.mem_singleton_self _))
  obtain ⟨noted, hset, hnoted⟩ := Listing.Follows.exists_setProducers hlaid.checked
    hsupplied.tracks.indexes hsupplied.follows.links hinstruction haddress (by omega)
    (values args start)
  have hforked : (base.moveTo (.ofNat (start + sizeAll args)) nextId).forkAt merged
      instruction.address = base.moveTo (.ofNat (start + sizeAll args)) nextId := by
    rw [Engine.forkAt, hfork merged hsupplied.tracks.indexes]
  have hvisit : stopped.visit walked instruction =
      (if 0 < instruction.pushes then
          (base.moveTo (.ofNat (start + sizeAll args)) nextId).push instruction.address
        else base.moveTo (.ofNat (start + sizeAll args)) nextId,
        .ok (Draft.add ⟨noted, left, walked.roots⟩ instruction (trees args start))) := by
    have hslots := hpopped []
    rw [List.append_nil] at hslots
    rw [← haddress] at hadvance
    simp only [Engine.visit, hadvance, hpops, hslots, hforked, htake, hset]
  have hfollows := hsupplied.follows.trans hnoted (Nat.le_add_right _ _)
    fun entry hentry => lt_of_mem_notesAll (fun other _ => other.lt_of_mem_notes) hentry
  rw [List.append_nil] at hfollows
  refine ⟨Draft.add ⟨noted, left, walked.roots⟩ instruction (trees args start), nextId, ?_, ?_⟩
  · rw [Engine.visitAll_append hsupplied.visit, Engine.visitAll, hvisit]
    rfl
  · by_cases hpushes : 0 < instruction.pushes
    · simp only [Draft.add, if_pos hpushes]
      refine ⟨hfollows, hleft.cons _, ?_⟩
      rw [List.append_nil]
      exact hsupplied.roots
    · simp only [Draft.add, if_neg hpushes]
      refine ⟨hfollows, hleft, ?_⟩
      rw [List.reverse_append, List.reverse_singleton, List.singleton_append,
        List.cons_append, ← hsupplied.roots]
      rfl

theorem runs_apply {opcode : Opcode} {operand : Operand} {args : List Source}
    (hlaid : Laid code first) (hruns : ∀ arg ∈ args, Runs code first arg)
    (hfits : (apply opcode operand args).fits = true) :
    Runs code first (apply opcode operand args) := by
  intro before after start horizon engine base draft hstart hhorizon
  have happly := fits_apply hfits
  have hstop := hstart.site.stop_le
  have hbound := hlaid.bound
  rw [length_code, size] at hstop
  rw [size] at hhorizon
  have hlast := hstart.site.mem_of_mem (mem_code_apply opcode operand args start)
  have hpushes : 0 < (Instruction.mk (.ofNat (start + sizeAll args)) opcode operand).pushes := by
    rw [happly.pushes]
    exact Nat.one_pos
  rw [Source.code] at hstart
  obtain ⟨final, nextId, hvisit, hgains⟩ := run_instruction hlaid hruns happly.args hstart rfl
    (happly.pops _) (fun target htarget => by
      rw [happly.jumpTarget?] at htarget
      cases htarget)
    (fun listing hindex => forkTarget?_of_jumpTarget? hlaid hindex hlast (happly.jumpTarget? _))
    (by omega)
  rw [if_pos hpushes, Engine.push_moveTo hstart.ready
    (by rw [Address.toNat_ofNat (by omega)]; omega)
    (by rw [Address.toNat_ofNat (by omega)]; omega)] at hvisit
  refine ⟨final, [], nextId, base.active, ?_, ⟨?_, ?_, .nil⟩, .root _ _, ?_⟩
  · rw [Source.code, hvisit, value, active, size]
    rfl
  · rw [closedValues, closed]
    rfl
  · intro arm harm
    cases harm
  · rw [if_pos hpushes, if_pos hpushes, List.append_nil] at hgains
    rw [notes, joins, statements, entries, alternatives_apply, active]
    exact hgains

/-- The tree of the jump past the first arm. -/
def skipTree (test yes : Source) (start : Nat) : Expr :=
  .op (.ofNat (start + test.size)) .brfalse
    (.target (.ofNat (start + test.size + yes.size + 2))) [test.tree start]

/-- The tree of the jump past the second arm. -/
def leaveTree (test yes no : Source) (start : Nat) : Expr :=
  .op (.ofNat (start + test.size + yes.size + 1)) .br
    (.target (.ofNat (start + test.size + yes.size + no.size + 2))) []

theorem statements_cond (test yes no : Source) (start : Nat) :
    (cond test yes no).statements start =
      test.statements start ++ skipTree test yes start ::
        (yes.statements (start + test.size + 1) ++ leaveTree test yes no start ::
          no.statements (start + test.size + yes.size + 2)) := by
  rw [statements, skipTree, leaveTree]

/-- The code of a choice in the steps in which it is walked. -/
theorem code_cond_append (test yes no : Source) (start : Nat) :
    (cond test yes no).code start =
      (test.code start ++ [skipJump test yes start]) ++ (yes.code (start + test.size + 1) ++
        ([leaveJump test yes no start] ++ no.code (start + test.size + yes.size + 2))) := by
  rw [code_cond]
  simp only [List.append_assoc, List.cons_append, List.nil_append]

theorem value_cond (test yes no : Source) (start : Nat) :
    (cond test yes no).value start = yes.value (start + test.size + 1) := by
  rw [value, value, Source.active]

/-- The second arm adds all its values to those that the first one leaves behind. -/
theorem closedValues_cond (test yes no : Source) (start : Nat) :
    (cond test yes no).closedValues start =
      yes.closedValues (start + test.size + 1) ++
        no.value (start + test.size + yes.size + 2) ::
          no.closedValues (start + test.size + yes.size + 2) := by
  rw [closedValues, closedValues, closedValues, value, closed, List.map_append, List.map_cons]

section Cond

variable {test yes no : Source}

/-- The test is used up by the jump, and the walk goes on with the first arm. -/
theorem run_skip (hlaid : Laid code first) (hfits : (cond test yes no).fits = true)
    (htest : Runs code first test)
    (hstart : Start code first before ((cond test yes no).code start) after start horizon
      engine base draft)
    (hhorizon : start + test.size + 1 < horizon) :
    ∃ final nextId,
      engine.visitAll draft (test.code start ++ [skipJump test yes start]) =
        (base.moveTo (.ofNat (start + test.size)) nextId, .ok final) ∧
      Start code first (before ++ (test.code start ++ [skipJump test yes start]))
        (yes.code (start + test.size + 1))
        (leaveJump test yes no start :: no.code (start + test.size + yes.size + 2) ++ after)
        (start + test.size + 1) horizon (base.moveTo (.ofNat (start + test.size)) nextId)
        (base.moveTo (.ofNat (start + test.size + 1)) nextId) final ∧
      final.Gains draft code start
        (test.notes start ++ [(.ofNat (start + test.size), [test.value start])])
        (test.joins start ++ test.ownJoin start) []
        (test.statements start ++ [skipTree test yes start]) := by
  obtain ⟨hfitsTest, _, _⟩ := fits_cond hfits
  have hbound := stop_cond_lt hlaid hstart.site
  have hsite := site_skip hlaid hfits hstart.site
  have hcode := codeAll_singleton test start
  have hsize := sizeAll_singleton test
  have hpart : Start code first before (codeAll [test] start ++ [skipJump test yes start]) _
      start horizon engine base draft :=
    ⟨hcode.symm ▸ hsite, hstart.holdsVisited, hstart.advance, hstart.ready, hstart.links⟩
  obtain ⟨final, nextId, hvisit, hgains⟩ := run_instruction hlaid
    (fun arg harg => List.mem_singleton.1 harg ▸ htest)
    (fun arg harg => List.mem_singleton.1 harg ▸ hfitsTest) hpart
    (by rw [hsize]; rfl) rfl
    (fun target htarget => by
      rw [jumpTarget?_skipJump, Option.some.injEq] at htarget
      rw [← htarget, Address.toNat_ofNat (by omega), hsize]
      omega)
    (fun listing hindex => forkTarget?_skipJump hlaid hstart.site hindex)
    (by omega)
  have hpushes : ¬ 0 < (skipJump test yes start).pushes := Nat.lt_irrefl 0
  rw [hsize, if_neg hpushes] at hvisit
  have hnext := hpart.next hlaid hvisit (by rw [Address.toNat_ofNat (by omega)]; omega)
    (by omega) hhorizon (by omega) hgains.follows.links (by rw [hcode])
    (site_yes hlaid hfits hstart.site)
  rw [hcode] at hvisit
  refine ⟨final, nextId, hvisit, hnext, ?_⟩
  rw [if_neg hpushes, if_neg hpushes] at hgains
  simp only [notesAll, values, joinsAll, statementsAll, instructionTree, trees,
    List.append_nil] at hgains
  exact hgains

/-- The jump past the second arm forks the branch of that arm. -/
theorem run_leave {outer later : List Instruction} (hlaid : Laid code first)
    (hfits : (cond test yes no).fits = true)
    (hsite : Site code first outer ((cond test yes no).code start) after start)
    (hstart : Start code first before [leaveJump test yes no start] later
      (start + test.size + yes.size + 1) horizon engine base draft)
    (hno : Site code first (before ++ [leaveJump test yes no start])
      (no.code (start + test.size + yes.size + 2)) after (start + test.size + yes.size + 2))
    (hhorizon : start + test.size + yes.size + no.size + 2 ≤ horizon) :
    ∃ final,
      engine.visitAll draft [leaveJump test yes no start] =
        (base.fork (.ofNat (start + test.size + yes.size + no.size + 2)), .ok final) ∧
      Start code first (before ++ [leaveJump test yes no start])
        (no.code (start + test.size + yes.size + 2)) after
        (start + test.size + yes.size + 2) (start + test.size + yes.size + no.size + 2)
        (base.fork (.ofNat (start + test.size + yes.size + no.size + 2)))
        ((base.fork (.ofNat (start + test.size + yes.size + no.size + 2))).moveTo
          (.ofNat (start + test.size + yes.size + 2)) (base.nextId + 1)) final ∧
      final.Gains draft code (start + test.size + yes.size + 1)
        [(.ofNat (start + test.size + yes.size + 1), [])] [] []
        [leaveTree test yes no start] := by
  have hbound := stop_cond_lt hlaid hsite
  have hpos := no.size_pos
  have hleave : leaveJump test yes no start ∈ code :=
    hstart.site.mem_of_mem (List.mem_singleton_self _)
  have hindex := hstart.tracks.indexes
  obtain ⟨noted, hset, hnoted⟩ := Listing.Follows.exists_setProducers hlaid.checked hindex
    hstart.links hleave rfl (by omega) []
  have hvisit : engine.visitAll draft [leaveJump test yes no start] =
      (base.fork (.ofNat (start + test.size + yes.size + no.size + 2)),
        .ok ⟨noted, draft.pending, leaveTree test yes no start :: draft.roots⟩) := by
    have hadvance : engine.advance (leaveJump test yes no start).address = (base, .ok ()) :=
      hstart.advance
    have hpops : base.popSlots draft.listing (leaveJump test yes no start).pops [] =
        (base, draft.listing, .ok []) := rfl
    have hforked : base.forkAt draft.listing (leaveJump test yes no start).address =
        base.fork (.ofNat (start + test.size + yes.size + no.size + 2)) := by
      have htarget := forkTarget?_leaveJump hlaid hfits hsite hindex
      change Engine.forkTarget? draft.listing (leaveJump test yes no start).address =
        _ at htarget
      rw [Engine.forkAt, htarget]
    simp only [Engine.visitAll, Engine.visit, hadvance, hpops, hforked, Pending.takeOperands,
      hset]
    rfl
  have hholds := hstart.holdsVisited_visitAll hlaid hvisit
  have hstop : (Address.ofNat (start + test.size + yes.size + no.size + 2)).toNat =
      start + test.size + yes.size + no.size + 2 := Address.toNat_ofNat (by omega)
  have hnext : (Address.ofNat (start + test.size + yes.size + 2)).toNat =
      start + test.size + yes.size + 2 := Address.toNat_ofNat (by omega)
  have hadvance := Engine.advance_fork hstart.ready
    (Address.lt_iff_toNat_lt.2 (by rw [hnext, hstop]; omega)) (hstop.symm ▸ hhorizon)
  have htracks := hholds.tracks.advance (.ofNat (start + test.size + yes.size + 2))
  rw [hadvance] at htracks
  have hready := hstart.ready.fork (by omega) (hstop.symm ▸ hhorizon) htracks.ordered
    htracks.settled
  rw [hnext, hstop] at hready
  exact ⟨_, hvisit, ⟨hno, hholds, hadvance, hready, hnoted.links⟩, hnoted, .refl _, rfl⟩

/-- The jump past the second arm is met where the first arm ends. -/
theorem site_leave (hsite : Site code first before ((cond test yes no).code start) after start) :
    Site code first
      (before ++ (test.code start ++ [skipJump test yes start]) ++
        yes.code (start + test.size + 1))
      [leaveJump test yes no start] (no.code (start + test.size + yes.size + 2) ++ after)
      (start + test.size + 1 + yes.size) := by
  apply Site.singleton
  · rw [hsite.split, code_cond]
    simp only [List.append_assoc, List.cons_append, List.nil_append]
  · simp only [List.length_append, length_code, List.length_singleton, ← hsite.start_eq]
    omega

/-- What the parts of a choice and its jumps add up to. -/
theorem gains_cond (hbound : start + test.size + yes.size + no.size + 2 ≤ Address.last.toNat)
    {tested chosen left final : Draft}
    (htest : tested.Gains draft code start
      (test.notes start ++ [(.ofNat (start + test.size), [test.value start])])
      (test.joins start ++ test.ownJoin start) []
      (test.statements start ++ [skipTree test yes start]))
    (hyes : chosen.Gains tested code (start + test.size + 1)
      (yes.notes (start + test.size + 1)) (yes.joins (start + test.size + 1))
      (yes.entries (start + test.size + 1)) (yes.statements (start + test.size + 1)))
    (hleave : left.Gains chosen code (start + test.size + yes.size + 1)
      [(.ofNat (start + test.size + yes.size + 1), [])] [] [] [leaveTree test yes no start])
    (hno : final.Gains left code (start + test.size + yes.size + 2)
      (no.notes (start + test.size + yes.size + 2))
      (no.joins (start + test.size + yes.size + 2))
      (no.entries (start + test.size + yes.size + 2))
      (no.statements (start + test.size + yes.size + 2))) :
    final.Gains draft code start ((cond test yes no).notes start)
      ((cond test yes no).joins start) ((cond test yes no).entries start)
      ((cond test yes no).statements start) := by
  have hnotesTest : ∀ entry ∈
      test.notes start ++ [(Address.ofNat (start + test.size), [test.value start])],
      entry.1.toNat < start + test.size + 1 := by
    intro entry hentry
    rcases List.mem_append.1 hentry with hentry | hentry
    · exact Nat.lt_succ_of_lt (test.lt_of_mem_notes start entry hentry)
    · rw [List.mem_singleton.1 hentry, Address.toNat_ofNat (by omega)]
      omega
  have hnotesYes : ∀ entry ∈ yes.notes (start + test.size + 1),
      entry.1.toNat < start + test.size + yes.size + 1 := by
    intro entry hentry
    have hlt := yes.lt_of_mem_notes _ entry hentry
    omega
  have hfirst := htest.trans hyes (by omega) hnotesTest
  have hsecond := hfirst.trans hleave (by omega) (fun entry hentry => by
    rcases List.mem_append.1 hentry with hentry | hentry
    · exact Nat.lt_of_lt_of_le (hnotesTest entry hentry) (by omega)
    · exact hnotesYes entry hentry)
  have hall := hsecond.trans hno (by omega) (fun entry hentry => by
    rcases List.mem_append.1 hentry with hentry | hentry
    · rcases List.mem_append.1 hentry with hentry | hentry
      · exact Nat.lt_of_lt_of_le (hnotesTest entry hentry) (by omega)
      · exact Nat.lt_of_lt_of_le (hnotesYes entry hentry) (by omega)
    · rw [List.mem_singleton.1 hentry, Address.toNat_ofNat (by omega)]
      omega)
  apply hall.congr
  · intro entry hentry
    rw [notes] at hentry
    simp only [List.mem_append] at hentry ⊢
    tauto
  · intro entry
    rw [joins]
    simp only [List.append_nil, List.mem_append]
  · rw [entries, entries, entries, List.nil_append, List.append_nil, ← List.map_append]
    exact ((alternatives_cond_perm test yes no start).symm).map _
  · rw [statements_cond]
    simp only [List.append_assoc, List.cons_append, List.nil_append]

theorem runs_cond (hlaid : Laid code first) (hfits : (cond test yes no).fits = true)
    (htest : Runs code first test) (hyes : Runs code first yes) (hno : Runs code first no) :
    Runs code first (cond test yes no) := by
  intro before after start horizon engine base draft hstart hhorizon
  have hbound := stop_cond_lt hlaid hstart.site
  have hpos := no.size_pos
  rw [size] at hhorizon
  -- the first arm is lifted on the branch of the choice, and its arms are among those
  -- of the choice
  obtain ⟨tested, testId, hvisitTest, hstartYes, hgainsTest⟩ :=
    run_skip hlaid hfits htest hstart (by omega)
  obtain ⟨chosen, arms, yesId, yesActive, hvisitYes, harmsYes, htailYes, hgainsYes⟩ :=
    hyes _ _ _ horizon _ _ _ hstartYes (by omega)
  have hstartLeave := start_behind hlaid hstartYes (by omega) hvisitYes harmsYes htailYes
    hgainsYes.follows.links (site_leave hstart.site)
  have hleave : start + test.size + 1 + yes.size = start + test.size + yes.size + 1 := by omega
  have htoNat : (Address.ofNat (start + test.size + 1)).toNat = start + test.size + 1 :=
    Address.toNat_ofNat (by omega)
  have hloaded := Engine.load_moveTo hstart.ready (by rw [htoNat]; omega)
    (by rw [htoNat]; omega) testId (yes.value (start + test.size + 1)) arms
  rw [hleave, hloaded, Engine.moveTo_moveTo, Engine.moveTo_moveTo] at hstartLeave
  rw [hleave, hloaded, Engine.moveTo_moveTo] at hvisitYes
  -- the second arm is lifted on a branch of its own, which is one more arm
  obtain ⟨left, hvisitLeave, hstartNo, hgainsLeave⟩ :=
    run_leave hlaid hfits hstart.site hstartLeave
      (by simpa only [List.append_assoc, List.cons_append, List.nil_append] using
        site_no hlaid hfits hstart.site) (by omega)
  have hhorizonNo : start + test.size + yes.size + 2 + no.size ≤
      start + test.size + yes.size + no.size + 2 := by omega
  obtain ⟨final, more, noId, active, hvisitNo, harmsNo, htailNo, hgainsNo⟩ :=
    hno _ _ _ _ _ _ _ hstartNo hhorizonNo
  have hend : start + test.size + yes.size + 2 + no.size =
      start + (cond test yes no).size := by
    rw [size]
    omega
  have hstop : start + test.size + yes.size + no.size + 2 =
      start + (cond test yes no).size := by
    rw [size]
    omega
  rw [Engine.load_fork hstartLeave.ready.ordered hstartNo.ready.ordered, hend] at hvisitNo
  rw [hend] at harmsNo htailNo
  refine ⟨final, arms ++ Engine.armBranch ((base.load (yes.value (start + test.size + 1))
    arms).moveTo (.ofNat (start + test.size + yes.size + 1)) yesId)
    (.ofNat (start + test.size + yes.size + no.size + 2))
    (no.value (start + test.size + yes.size + 2)) :: more, noId, active, ?_, ?_, ?_,
    gains_cond hbound hgainsTest hgainsYes hgainsLeave hgainsNo⟩
  · rw [code_cond_append, Engine.visitAll_append hvisitTest, Engine.visitAll_append hvisitYes,
      Engine.visitAll_append hvisitLeave, value_cond]
    exact hvisitNo
  · rw [closedValues_cond]
    refine (harmsYes.mono ?_).append rfl rfl ?_ harmsNo
    · omega
    · change (Address.ofNat _).toNat ≤ _
      rw [Address.toNat_ofNat (by omega), hstop]
  · rw [hstop]
    exact .arm arms rfl rfl htailNo

end Cond

theorem runs (hlaid : Laid code first) (source : Source) (hfits : source.fits = true) :
    Runs code first source := by
  induction source using Source.induction with
  | apply opcode operand args hargs =>
      have hfitsArgs := (fits_apply hfits).args
      exact runs_apply hlaid (fun arg harg => hargs arg harg (hfitsArgs arg harg)) hfits
  | cond test yes no htest hyes hno =>
      obtain ⟨hfitsTest, hfitsYes, hfitsNo⟩ := fits_cond hfits
      exact runs_cond hlaid hfits (htest hfitsTest) (hyes hfitsYes) (hno hfitsNo)

end Source

end StackLift
