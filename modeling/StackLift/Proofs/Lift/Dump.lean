import StackLift.Lift.Expr
import StackLift.Proofs.Code.Spelling

/-!
# Dumps can be read in one way only

The dump of an expression shows everything about it but where its instructions stood
and which consumer its merges belong to.  Two expressions with the same text agree in
all else, and so do two statements, together with the labels before them.  The
argument follows the text from left to right: each part can be determinedByText from whatever may
stand behind it.
-/

namespace StackLift

namespace Expr

/-! ## Expressions without their places -/

mutual

/-- The expression with all addresses of instructions and all anchors of merges
replaced by one and the same. -/
def unplaced : Expr → Expr
  | .op _ opcode operand args => .op .zero opcode operand (unplacedArgs args)
  | .phi _ incoming => .phi .zero (unplacedIncoming incoming)

/-- The operands without their places. -/
def unplacedArgs : List Expr → List Expr
  | [] => []
  | expr :: rest => unplaced expr :: unplacedArgs rest

/-- The merged values without their places, each with its label. -/
def unplacedIncoming : List (Address × Expr) → List (Address × Expr)
  | [] => []
  | (label, value) :: rest => (label, unplaced value) :: unplacedIncoming rest

end

theorem unplacedArgs_eq_map (args : List Expr) : unplacedArgs args = args.map unplaced := by
  induction args with
  | nil => rfl
  | cons expr rest ih => rw [unplacedArgs, ih, List.map_cons]

theorem unplacedIncoming_eq_map (incoming : List (Address × Expr)) :
    unplacedIncoming incoming = incoming.map fun entry => (entry.1, entry.2.unplaced) := by
  induction incoming with
  | nil => rfl
  | cons entry rest ih => rw [unplacedIncoming, ih, List.map_cons]

/-- What holds of every instruction whose operands have it, and of every merge whose
values have it, holds of every expression. -/
@[elab_as_elim]
theorem induction {motive : Expr → Prop}
    (op : ∀ address opcode operand args, (∀ arg ∈ args, motive arg) →
      motive (.op address opcode operand args))
    (phi : ∀ anchor incoming, (∀ entry ∈ incoming, motive entry.2) →
      motive (.phi anchor incoming)) (expr : Expr) : motive expr :=
  @Expr.rec motive (fun args => ∀ arg ∈ args, motive arg)
    (fun incoming => ∀ entry ∈ incoming, motive entry.2) (fun entry => motive entry.2)
    op phi
    (fun arg harg => by cases harg)
    (fun first rest hfirst hrest arg harg => by
      rcases List.mem_cons.1 harg with rfl | hmore
      · exact hfirst
      · exact hrest arg hmore)
    (fun entry hentry => by cases hentry)
    (fun first rest hfirst hrest entry hentry => by
      rcases List.mem_cons.1 hentry with rfl | hmore
      · exact hfirst
      · exact hrest entry hmore)
    (fun label value hvalue => hvalue)
    expr

/-! ## Texts of the parts -/

/-- The text of a merged value, behind its label. -/
def entryText (entry : Address × Expr) : String :=
  entry.1.text ++ ": " ++ entry.2.text

theorem argTexts_eq_map (args : List Expr) : argTexts args = args.map text := by
  induction args with
  | nil => rfl
  | cons expr rest ih => rw [argTexts, ih, List.map_cons]

theorem incomingTexts_eq_map (incoming : List (Address × Expr)) :
    incomingTexts incoming = incoming.map entryText := by
  induction incoming with
  | nil => rfl
  | cons entry rest ih => rw [incomingTexts, ih, List.map_cons, entryText]

/-- The operands in brackets, or nothing where there are none. -/
def bracketed : List Expr → String
  | [] => ""
  | args => "(" ++ Text.commaSeparated (args.map text) ++ ")"

/-- What an expression begins with: what it does, before the parts it does it with. -/
def stem : Expr → String
  | .op _ opcode operand _ => head opcode operand
  | .phi _ _ => "phi"

/-- The operands or the merged values, in the brackets of their kind. -/
def parts : Expr → String
  | .op _ _ _ args => bracketed args
  | .phi _ incoming => "[" ++ Text.commaSeparated (incoming.map entryText) ++ "]"

theorem text_eq (expr : Expr) : expr.text = expr.stem ++ expr.parts := by
  cases expr with
  | op address opcode operand args =>
      cases args with
      | nil => rw [text, stem, parts, bracketed, String.append_empty]
      | cons first rest =>
          simp only [text, stem, parts, bracketed, argTexts_eq_map, String.append_assoc]
  | phi anchor incoming =>
      rw [text, stem, parts, incomingTexts_eq_map, ← String.append_assoc, ← String.append_assoc]
      rfl

/-- The text does not show places. -/
theorem text_unplaced (expr : Expr) : expr.unplaced.text = expr.text := by
  induction expr using Expr.induction with
  | op address opcode operand args ih =>
      have hargs : argTexts (unplacedArgs args) = argTexts args := by
        rw [unplacedArgs_eq_map, argTexts_eq_map, argTexts_eq_map, List.map_map]
        exact List.map_congr_left ih
      cases args with
      | nil => rfl
      | cons first rest =>
          simp only [unplaced, unplacedArgs, text] at hargs ⊢
          rw [hargs]
  | phi anchor incoming ih =>
      have hincoming : incomingTexts (unplacedIncoming incoming) = incomingTexts incoming := by
        rw [unplacedIncoming_eq_map, incomingTexts_eq_map, incomingTexts_eq_map, List.map_map]
        refine List.map_congr_left fun entry hentry => ?_
        rw [Function.comp_apply, entryText, entryText, ih entry hentry]
      rw [unplaced, text, text, hincoming]

/-! ## Stems -/

/-- Characters of mnemonics and operands together. -/
def isStemChar (char : Char) : Bool :=
  Text.isWordChar char || char == ' '

theorem isStemChar_of_isWord {word : String} (hword : Text.IsWord word) :
    ∀ char ∈ word.toList, isStemChar char = true := by
  intro char hchar
  rw [isStemChar, Text.isWord_iff.1 hword char hchar, Bool.true_or]

theorem isStemChar_of_mem_head (opcode : Opcode) (operand : Operand) :
    ∀ char ∈ (head opcode operand).toList, isStemChar char = true := by
  have hremark : ∀ char ∈ operand.remark.toList, isStemChar char = true := by
    cases operand with
    | call site =>
        rw [← List.all_eq_true, Operand.remark]
        cases site.returns <;> decide
    | _ => simp [Operand.remark]
  rw [head]
  split
  · simpa using isStemChar_of_isWord opcode.isWord_mnemonic
  · rw [Operand.text_eq]
    simp only [String.toList_append, List.forall_mem_append]
    exact ⟨isStemChar_of_isWord opcode.isWord_mnemonic, List.all_eq_true.1 (by decide),
      isStemChar_of_isWord operand.isWord_word, hremark⟩

theorem isStemChar_of_mem_stem (expr : Expr) :
    ∀ char ∈ expr.stem.toList, isStemChar char = true := by
  cases expr with
  | op address opcode operand args => exact isStemChar_of_mem_head opcode operand
  | phi anchor incoming => exact isStemChar_of_isWord (show Text.IsWord "phi" by decide)

/-- The head of an instruction names its operation and its inline operand. -/
theorem head_inj {opcode other : Opcode} {operand inline : Operand}
    (heq : head opcode operand = head other inline) : opcode = other ∧ operand = inline := by
  have hleaves : ∀ operand : Operand, Text.Leaves Text.isWordChar
      (if operand = .absent then "" else " " ++ operand.text).toList := by
    intro operand
    split
    · simp [Text.Leaves]
    · simp [Text.Leaves, Text.isWordChar]
  have hblank : ∀ text : String, " " ++ text ≠ "" := fun text hempty =>
    absurd (String.append_eq_empty_iff.1 hempty).1 (by decide)
  have hchars := congrArg String.toList heq
  rw [head, head, String.toList_append, String.toList_append] at hchars
  obtain ⟨hmnemonic, hinline⟩ := Text.append_inj_of_leaves
    (Text.isWord_iff.1 opcode.isWord_mnemonic) (Text.isWord_iff.1 other.isWord_mnemonic)
    (hleaves operand) (hleaves inline) hchars
  refine ⟨Opcode.mnemonic_injective (String.toList_injective hmnemonic), ?_⟩
  have htexts := String.toList_injective hinline
  split at htexts
  · next hoperand =>
    split at htexts
    · next hnone => rw [hoperand, hnone]
    · exact absurd htexts.symm (hblank _)
  · split at htexts
    · exact absurd htexts (hblank _)
    · exact Operand.text_injective ((String.append_right_inj " ").1 htexts)

/-- An expression begins with a word. -/
theorem text_append_ne_cons (expr : Expr) {mark : Char} (hmark : Text.isWordChar mark = false)
    (rest following : List Char) : expr.text.toList ++ rest ≠ mark :: following := by
  have hbegins : ∃ word behind, Text.IsWord word ∧ word ≠ "" ∧ expr.text = word ++ behind := by
    rw [text_eq]
    cases expr with
    | op address opcode operand args =>
        rw [stem, head, String.append_assoc]
        exact ⟨_, _, opcode.isWord_mnemonic, opcode.mnemonic_ne_empty, rfl⟩
    | phi anchor incoming => exact ⟨"phi", _, by decide, by decide, rfl⟩
  obtain ⟨word, behind, hword, hne, htext⟩ := hbegins
  rw [htext, String.toList_append, List.append_assoc]
  exact hword.append_ne_cons hne hmark _ _

/-! ## Expressions -/

/-- The text is over or goes on with a mark that separates or ends items. -/
def Closes (rest : List Char) : Prop :=
  ∀ char ∈ rest.head?, char = ',' ∨ char = ')' ∨ char = ']'

theorem closes_nil : Closes [] := by
  simp [Closes]

theorem closes_cons_iff {mark : Char} {rest : List Char} :
    Closes (mark :: rest) ↔ mark = ',' ∨ mark = ')' ∨ mark = ']' := by
  simp [Closes]

/-- Where an expression may end, no bracket opens. -/
theorem Closes.ne_cons {rest : List Char} (hrest : Closes rest) {mark : Char}
    (hmark : ¬ (mark = ',' ∨ mark = ')' ∨ mark = ']')) (behind : List Char) :
    rest ≠ mark :: behind := by
  rintro rfl
  exact hmark (closes_cons_iff.1 hrest)

/-- Behind the stem come the parts, and behind the parts a mark that closes. -/
theorem leaves_parts (expr : Expr) {rest : List Char} (hrest : Closes rest) :
    Text.Leaves isStemChar (expr.parts.toList ++ rest) := by
  have hmark : ∀ {mark : Char} {behind : List Char}, isStemChar mark = false →
      Text.Leaves isStemChar (mark :: behind) := by
    intro mark behind hmark
    simpa [Text.Leaves] using hmark
  cases expr with
  | op address opcode operand args =>
      cases args with
      | nil =>
          intro char hchar
          rcases hrest char hchar with rfl | rfl | rfl <;> decide
      | cons first more =>
          simp only [parts, bracketed, String.toList_append, List.append_assoc]
          exact hmark (by decide)
  | phi anchor incoming =>
      simp only [parts, String.toList_append, List.append_assoc]
      exact hmark (by decide)

/-- Two texts that are closed begin with the same stem and go on with the same parts. -/
theorem stem_append_inj {left right : Expr} {rest following : List Char} (hrest : Closes rest)
    (hfollowing : Closes following)
    (heq : left.text.toList ++ rest = right.text.toList ++ following) :
    left.stem = right.stem ∧
      left.parts.toList ++ rest = right.parts.toList ++ following := by
  rw [text_eq, text_eq, String.toList_append, String.toList_append, List.append_assoc,
    List.append_assoc] at heq
  obtain ⟨hstem, hparts⟩ := Text.append_inj_of_leaves left.isStemChar_of_mem_stem
    right.isStemChar_of_mem_stem (left.leaves_parts hrest) (right.leaves_parts hfollowing) heq
  exact ⟨String.toList_injective hstem, hparts⟩

/-- The operands of an instruction cannot be taken for merged values. -/
theorem bracketed_append_ne (args : List Expr) {rest : List Char} (hrest : Closes rest)
    (following : List Char) : (bracketed args).toList ++ rest ≠ '[' :: following := by
  intro heq
  cases args with
  | nil =>
      rw [bracketed] at heq
      exact hrest.ne_cons (by decide) following heq
  | cons first more =>
      simp only [bracketed, String.toList_append, List.append_assoc] at heq
      exact absurd (List.cons.inj heq).1 (by decide)

/-- The expression can be determinedByText from what closes it, whatever expression it is
compared with. -/
def DeterminedByText (expr : Expr) : Prop :=
  ∀ (other : Expr) (rest following : List Char), Closes rest → Closes following →
    expr.text.toList ++ rest = other.text.toList ++ following →
      expr.unplaced = other.unplaced ∧ rest = following

theorem bracketed_append_inj {args others : List Expr} {rest following : List Char}
    (hargs : ∀ arg ∈ args, DeterminedByText arg) (hrest : Closes rest)
    (hfollowing : Closes following)
    (heq : (bracketed args).toList ++ rest = (bracketed others).toList ++ following) :
    args.map unplaced = others.map unplaced ∧ rest = following := by
  cases args with
  | nil =>
      cases others with
      | nil => exact ⟨rfl, heq⟩
      | cons first more =>
          simp only [bracketed, String.toList_append, List.append_assoc] at heq
          exact absurd heq (hrest.ne_cons (by decide) _)
  | cons first more =>
      cases others with
      | nil =>
          simp only [bracketed, String.toList_append, List.append_assoc] at heq
          exact absurd heq.symm (hfollowing.ne_cons (by decide) _)
      | cons second others =>
          simp only [bracketed, String.toList_append, List.append_assoc,
            List.append_cancel_left_eq] at heq
          exact Text.commaSeparated_append_inj (by decide)
            (fun _ => closes_cons_iff.2 (.inl rfl)) (fun _ => closes_cons_iff.2 (.inr (.inl rfl)))
            (fun arg rest following => arg.text_append_ne_cons (by decide) rest following)
            hargs heq

/-- A merged value is known with its label. -/
theorem entryText_append_inj {entry other : Address × Expr} {rest following : List Char}
    (hvalue : DeterminedByText entry.2) (hrest : Closes rest) (hfollowing : Closes following)
    (heq : (entryText entry).toList ++ rest = (entryText other).toList ++ following) :
    (entry.1, entry.2.unplaced) = (other.1, other.2.unplaced) ∧ rest = following := by
  simp only [entryText, String.toList_append, List.append_assoc] at heq
  obtain ⟨hlabel, hbehind⟩ := Address.text_append_colon_inj heq
  obtain ⟨hunplaced, hrests⟩ :=
    hvalue other.2 rest following hrest hfollowing (List.cons.inj hbehind).2
  rw [hlabel, hunplaced]
  exact ⟨rfl, hrests⟩

theorem merged_append_inj {incoming others : List (Address × Expr)} {rest following : List Char}
    (hvalues : ∀ entry ∈ incoming, DeterminedByText entry.2)
    (heq : (Text.commaSeparated (incoming.map entryText)).toList ++ ']' :: rest =
      (Text.commaSeparated (others.map entryText)).toList ++ ']' :: following) :
    unplacedIncoming incoming = unplacedIncoming others ∧ rest = following := by
  rw [unplacedIncoming_eq_map, unplacedIncoming_eq_map]
  refine Text.commaSeparated_append_inj (by decide)
    (fun _ => closes_cons_iff.2 (.inl rfl)) (fun _ => closes_cons_iff.2 (.inr (.inr rfl)))
    (fun entry rest following => ?_)
    (fun entry hentry other rest following hrest hfollowing =>
      entryText_append_inj (hvalues entry hentry) hrest hfollowing) heq
  rw [entryText, String.append_assoc, String.toList_append, List.append_assoc]
  exact entry.1.isWord_text.append_ne_cons entry.1.text_ne_empty (by decide) _ _

/-- Every expression can be determinedByText from what closes it. -/
theorem determinedByText (expr : Expr) : expr.DeterminedByText := by
  -- the other expression and both rests vary: a part ends where the next part begins
  induction expr using Expr.induction with
  | op address opcode operand args ih =>
      intro other rest following hrest hfollowing heq
      obtain ⟨hstem, hparts⟩ := stem_append_inj hrest hfollowing heq
      cases other with
      | op place otherOpcode inline others =>
          obtain ⟨rfl, rfl⟩ := head_inj hstem
          obtain ⟨hargs, hrests⟩ := bracketed_append_inj ih hrest hfollowing hparts
          rw [unplaced, unplaced, unplacedArgs_eq_map, unplacedArgs_eq_map, hargs]
          exact ⟨rfl, hrests⟩
      | phi anchor incoming =>
          simp only [parts, String.toList_append, List.append_assoc] at hparts
          exact absurd hparts (bracketed_append_ne args hrest _)
  | phi anchor incoming ih =>
      intro other rest following hrest hfollowing heq
      obtain ⟨-, hparts⟩ := stem_append_inj hrest hfollowing heq
      cases other with
      | op place opcode inline others =>
          simp only [parts, String.toList_append, List.append_assoc] at hparts
          exact absurd hparts.symm (bracketed_append_ne others hfollowing _)
      | phi otherAnchor others =>
          simp only [parts, String.toList_append, List.append_assoc,
            List.append_cancel_left_eq] at hparts
          obtain ⟨hincoming, hrests⟩ := merged_append_inj ih hparts
          rw [unplaced, unplaced, hincoming]
          exact ⟨rfl, hrests⟩

theorem text_eq_iff {left right : Expr} :
    left.text = right.text ↔ left.unplaced = right.unplaced := by
  constructor
  · intro heq
    exact (left.determinedByText right [] [] closes_nil closes_nil (by rw [heq])).1
  · intro heq
    rw [← text_unplaced left, heq, text_unplaced]

end Expr

/-! ## Statements -/

namespace Statement

/-- The labels before a statement can be determinedByText from its indented expression. -/
theorem labels_append_inj {labels others : List Address} {rest following : List Char}
    (heq : (labels.flatMap fun label => label.text.toList ++ [':', '\n']) ++ ' ' :: rest =
      (others.flatMap fun label => label.text.toList ++ [':', '\n']) ++ ' ' :: following) :
    labels = others ∧ rest = following := by
  have hindent : ∀ (label : Address) (behind indented : List Char),
      label.text.toList ++ behind ≠ ' ' :: indented := fun label =>
    label.isWord_text.append_ne_cons label.text_ne_empty (by decide)
  induction labels generalizing others with
  | nil =>
      cases others with
      | nil => exact ⟨rfl, (List.cons.inj heq).2⟩
      | cons other others =>
          simp only [List.flatMap_cons, List.append_assoc] at heq
          exact absurd heq.symm (hindent other _ _)
  | cons label labels ih =>
      cases others with
      | nil =>
          simp only [List.flatMap_cons, List.append_assoc] at heq
          exact absurd heq (hindent label _ _)
      | cons other others =>
          simp only [List.flatMap_cons, List.append_assoc] at heq
          obtain ⟨rfl, hbehind⟩ := Address.text_append_colon_inj heq
          obtain ⟨rfl, hrests⟩ := ih (List.cons.inj hbehind).2
          exact ⟨rfl, hrests⟩

theorem toList_text (statement : Statement) :
    statement.text.toList =
      (statement.labels.flatMap fun label => label.text.toList ++ [':', '\n']) ++
        ' ' :: ("   " ++ statement.expr.text).toList := by
  simp [text, List.flatMap_map]

theorem text_eq_iff {left right : Statement} :
    left.text = right.text ↔
      left.labels = right.labels ∧ left.expr.text = right.expr.text := by
  constructor
  · intro heq
    have hchars := congrArg String.toList heq
    rw [toList_text, toList_text] at hchars
    obtain ⟨hlabels, hexpr⟩ := labels_append_inj hchars
    exact ⟨hlabels, (String.append_right_inj "   ").1 (String.toList_injective hexpr)⟩
  · rintro ⟨hlabels, hexpr⟩
    rw [text, text, hlabels, hexpr]

end Statement

/-- Equal texts mean expressions that are equal but for places, and statements with the
same labels over such expressions. -/
theorem text_unambiguous :
    (∀ left right : Expr, left.text = right.text ↔ left.unplaced = right.unplaced) ∧
    ∀ left right : Statement, left.text = right.text ↔
      left.labels = right.labels ∧ left.expr.unplaced = right.expr.unplaced := by
  constructor
  · intro left right
    exact Expr.text_eq_iff
  · intro left right
    rw [Statement.text_eq_iff, Expr.text_eq_iff]

end StackLift
