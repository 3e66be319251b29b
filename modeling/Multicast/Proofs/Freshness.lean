import Mathlib.Data.List.Perm.Subperm
import Multicast.Proofs.HookMethods
import Multicast.Proofs.Passing

/-!
# Names in the bodies of the generated methods

The receiver and the loop variable are named by `freshName`, which puts a number behind the
preferred name if that is taken. It tries no more numbers than there are taken names, and one, and
so it finds a free one: the numbered names are distinct, and not all of them can be taken
(`isFresh_freshName`).

The receiver is bound in all three methods, and the loop variable and the parameters in the
forwarding method; all other names are always the same. A name in a body refers to the innermost of
the names bound around it that is written like it, whether that one is meant or not. Which one is
meant can be told from the lines with places for names (`Stencil`), before names are put at the
places. No name is captured if each refers to what it is meant for, and one that is bound in no
method, such as `append`, to nothing in them (`Uncaptured`). This is so if the names at the places
differ from each other and from all other names (`uncaptured_of_over`).

## Places in lines

Names in lines are compared before they are filled in. A line is a stencil with places, and a place says
what goes there: the receiver, the loop variable, the name of the hook, and so on. So it can be said of a
line which of its names are meant to refer to a binder, whatever the names are. If names at different
places differ, and none is a word that occurs in the lines, then in the filled lines names refer to what
was meant. The lists of parameters have no fixed length, and they are added to the places one by one.

Names behind a dot are left out, since what they refer to is told by what stands in front of the dot.
-/

namespace Multicast

open Source

/-! ### Fresh names

The numbers are tried from one on. All of them could be taken only if there were more taken names than
there are. -/

/-- **A fresh name** is not taken. It is the preferred one if that is free, and otherwise the
preferred one with the least positive number behind it that makes it free. -/
structure IsFresh (preferred : String) (taken : List String) (name : String) : Prop where
  free : name ∉ taken
  kept : preferred ∉ taken → name = preferred
  numbered : preferred ∈ taken → ∃ n, 1 ≤ n ∧ name = preferred ++ toString n ∧
    ∀ k, 1 ≤ k → k < n → preferred ++ toString k ∈ taken

/-- **There are more numbers than taken names**, so that one of the first is free. -/
theorem exists_numbered_not_mem (preferred : String) (taken : List String) :
    ∃ n ≤ taken.length, preferred ++ toString (n + 1) ∉ taken := by
  by_contra hnone
  have htaken : (List.range (taken.length + 1)).map (fun n => preferred ++ toString (n + 1)) ⊆
      taken := by
    intro name hname
    obtain ⟨n, hn, rfl⟩ := List.mem_map.1 hname
    by_contra hfree
    exact hnone ⟨n, Nat.lt_succ_iff.1 (List.mem_range.1 hn), hfree⟩
  have hdistinct : ((List.range (taken.length + 1)).map
      fun n => preferred ++ toString (n + 1)).Nodup :=
    List.Nodup.map (fun _ _ h => Nat.succ_injective (numbered_inj h)) List.nodup_range
  have hle := (hdistinct.subperm htaken).length_le
  rw [List.length_map, List.length_range] at hle
  omega

/-- **The name that is found is fresh.** -/
theorem isFresh_freshName (preferred : String) (taken : List String) :
    IsFresh preferred taken (freshName preferred taken) := by
  rw [freshName]
  split
  next hmem =>
    dsimp only
    rw [List.find?_map]
    rcases hfound : (List.range (taken.length + 1)).find?
        ((fun x => decide (x ∉ taken)) ∘ fun n => preferred ++ toString (n + 1)) with _ | n
    -- a search without a result would have passed by a free name
    · obtain ⟨n, hn, hfree⟩ := exists_numbered_not_mem preferred taken
      have htaken := List.find?_eq_none.1 hfound n (List.mem_range.2 (Nat.lt_succ_of_le hn))
      exact (htaken (decide_eq_true hfree)).elim
    · obtain ⟨hfree, -, hleast⟩ := List.find?_range_eq_some.1 hfound
      refine ⟨by simpa using hfree, fun h => absurd hmem h, fun _ => ⟨n + 1, by omega, rfl, ?_⟩⟩
      intro k hk hlt
      obtain ⟨k, rfl⟩ : ∃ k', k = k' + 1 := ⟨k - 1, by omega⟩
      simpa using hleast k (by omega)
  next hfree => exact ⟨hfree, fun _ => rfl, fun h => absurd h hfree⟩

/-- A fresh name is no other name, unless that ends in a digit. -/
theorem IsFresh.ne {preferred name other : String} {taken : List String}
    (h : IsFresh preferred taken name) (hother : preferred ≠ other)
    (hdigit : (other.toList.getLast?.any Char.isDigit) = false) : name ≠ other := by
  by_cases hmem : preferred ∈ taken
  · obtain ⟨n, -, rfl, -⟩ := h.numbered hmem
    rintro rfl
    have hne : Nat.toDigits 10 n ≠ [] := Nat.toDigits_ne_nil
    have hlast : (preferred ++ toString n).toList.getLast? =
        some ((Nat.toDigits 10 n).getLast hne) := by
      simp [List.getLast?_eq_some_getLast hne]
    have hisDigit := Nat.isDigit_of_mem_toDigits (by decide) (by decide) (List.getLast_mem hne)
    rw [hlast, Option.any_some, hisDigit] at hdigit
    cases hdigit
  · rwa [h.kept hmem]

/-! ### Names in lines -/

section

variable {ι : Type}

namespace Slot

/-- A name that is always the same. -/
abbrev word (n : String) : Slot ι :=
  .piece (.name n)

/-- The names in a line that stand alone. One behind a dot is looked up in what is before the dot.
-/
def standing : List (Slot ι) → List (Slot ι)
  | .piece (.lexeme .dot _) :: _ :: slots => standing slots
  | .piece (.lexeme .identifier t) :: slots => .piece (.lexeme .identifier t) :: standing slots
  | .name place :: slots => .name place :: standing slots
  | _ :: slots => standing slots
  | [] => []

/-- A name at one of these places, or one of these words. -/
def Over (places : List ι) (words : List String) : Slot ι → Prop
  | piece p => ∃ n ∈ words, p = .name n
  | name place => place ∈ places

instance [DecidableEq ι] (places : List ι) (words : List String) :
    DecidablePred (Over places words)
  | piece p => inferInstanceAs (Decidable (∃ n ∈ words, p = .name n))
  | name place => inferInstanceAs (Decidable (place ∈ places))

theorem Over.mono {places : List ι} {words more : List String} (hwords : words ⊆ more)
    {slot : Slot ι} (h : slot.Over places words) : slot.Over places more := by
  cases slot with
  | piece p =>
    obtain ⟨n, hn, rfl⟩ := h
    exact ⟨n, hwords hn, rfl⟩
  | name place => exact h

end Slot

/-- The names that stand alone in lines. -/
def standingNames (stencils : List (Stencil ι)) : List (Slot ι) :=
  stencils.flatMap fun stencil => Slot.standing stencil.slots

variable [DecidableEq ι]

/-- **No name is captured** by those that are bound around it, the innermost first: a bound name
refers to itself, and one that is not bound refers to none of them. -/
def Uncaptured (names : ι → String) (bound uses : List (Slot ι)) : Prop :=
  ∀ use ∈ uses, bound.find? (fun b => b.fill names = use.fill names) =
    if use ∈ bound then some use else none

/-- Names that are told apart are not captured. -/
theorem uncaptured_of_injOn {names : ι → String} {bound uses : List (Slot ι)}
    (h : ∀ b ∈ bound, ∀ use ∈ uses, b.fill names = use.fill names → b = use) :
    Uncaptured names bound uses := by
  intro use huse
  induction bound with
  | nil => rfl
  | cons b bound ih =>
    obtain ⟨hb, hbound⟩ := List.forall_mem_cons.1 h
    rw [List.find?_cons]
    by_cases heq : b = use
    · simp [heq]
    · have hfill : b.fill names ≠ use.fill names := fun hfill => heq (hb use huse hfill)
      rw [decide_eq_false hfill, ih hbound]
      simp [Ne.symm heq]

/-- **Names are told apart** if those at different places differ from each other and from the
words. -/
theorem uncaptured_of_over {names : ι → String} {places : List ι} {words : List String}
    (hplaces : ∀ p ∈ places, ∀ q ∈ places, names p = names q → p = q)
    (hwords : ∀ p ∈ places, names p ∉ words) {bound uses : List (Slot ι)}
    (hbound : ∀ b ∈ bound, b.Over places words) (huses : ∀ use ∈ uses, use.Over places words) :
    Uncaptured names bound uses := by
  refine uncaptured_of_injOn fun b hb use huse hfill => ?_
  have hb := hbound b hb
  have huse := huses use huse
  -- two names of one kind are written alike only if they are one; a place and a word never are
  have hname {n m : String} (h : Piece.name n = .name m) : n = m :=
    String.toList_inj.1 (Piece.lexeme.inj h).2
  cases b with
  | piece p =>
    obtain ⟨n, hn, rfl⟩ := hb
    cases use with
    | piece q => exact congrArg Slot.piece hfill
    | name place => exact absurd (hname hfill ▸ hn) (hwords place huse)
  | name place =>
    cases use with
    | piece q =>
      obtain ⟨n, hn, rfl⟩ := huse
      exact absurd ((hname hfill).symm ▸ hn) (hwords place hb)
    | name other => rw [hplaces place hb other huse (hname hfill)]

end

/-! ### The three bodies -/

namespace HookFile

/-- What is bound in the method that appends an entry. -/
def appendScope : List (Slot Place) :=
  [.word "entry", .word "item", .name .receiver]

/-- What is bound in the method that removes an entry. -/
def removeScope : List (Slot Place) :=
  [.word "i", .word "entry", .name .receiver]

/-- What is bound in the method that forwards to all entries. -/
def forwardScope (params : List String) : List (Slot Place) :=
  .name .entry :: (params.map .word ++ [.name .receiver])

/-- **The bodies of the three methods**, line by line, and no name in them is captured. -/
structure Hygienic (t : HookFile) (names : Place → String) (params : List String) : Prop where
  appendBody : t.appendLines.drop 2 =
    (lockStencils t.threadSafe ++ appendStencils).map (Stencil.fill names)
  append : Uncaptured names appendScope
    (standingNames (lockStencils t.threadSafe ++ appendStencils))
  removeBody : t.removeLines.drop 1 =
    (lockStencils t.threadSafe ++ removeStencils).map (Stencil.fill names)
  remove : Uncaptured names removeScope
    (standingNames (lockStencils t.threadSafe ++ removeStencils))
  forwardBody : t.forwardLines.drop 2 =
    (lockStencils t.threadSafe ++ [loopStencil]).map (Stencil.fill names) ++
      (callStencil.fill names ++ "(" ++ ", ".intercalate t.callArgs ++ ")") ::
        closeStencils.map (Stencil.fill names)
  forward : Uncaptured names (forwardScope params)
    (standingNames (lockStencils t.threadSafe ++ (loopStencil :: callStencil :: closeStencils)) ++
      params.map .word)

/-- The words in the bodies of the methods that append and remove an entry. -/
def fixedWords : List String :=
  ["item", "entry", "i", "append", "hooked"]

/-- The names that stand in the lines of the methods. -/
theorem over_stencils :
    (∀ use ∈ standingNames (lockStencils true), use = .name .receiver) ∧
    (∀ use ∈ standingNames appendStencils, use.Over [.receiver] fixedWords) ∧
    (∀ use ∈ standingNames removeStencils, use.Over [.receiver] fixedWords) ∧
    ∀ use ∈ standingNames (loopStencil :: callStencil :: closeStencils),
      use.Over [.receiver, .entry] ["_"] := by
  simp only [standingNames, lockStencils, appendStencils, removeStencils, loopStencil, callStencil,
    closeStencils, if_true, List.flatMap_cons, List.flatMap_nil, Stencil.slots, Segment.slots,
    split_eq_splitFast 40]
  repeat rw [String.toList_ofList]
  decide

/-- The lines that take the mutex use the receiver alone. -/
theorem over_locked {places : List Place} {words : List String} {stencils : List (Stencil Place)}
    (hreceiver : .receiver ∈ places) (h : ∀ use ∈ standingNames stencils, use.Over places words)
    (threadSafe : Bool) :
    ∀ use ∈ standingNames (lockStencils threadSafe ++ stencils), use.Over places words := by
  obtain ⟨hlock, -⟩ := over_stencils
  intro use huse
  rw [standingNames, List.flatMap_append] at huse
  rcases List.mem_append.1 huse with huse | huse
  · cases threadSafe with
    | false => cases huse
    | true =>
      rw [hlock use huse]
      exact hreceiver
  · exact h use huse

theorem over_appendBody (threadSafe : Bool) :
    (∀ b ∈ appendScope, b.Over [.receiver] fixedWords) ∧
      ∀ use ∈ standingNames (lockStencils threadSafe ++ appendStencils),
        use.Over [.receiver] fixedWords :=
  ⟨by decide, over_locked (by decide) over_stencils.2.1 threadSafe⟩

theorem over_removeBody (threadSafe : Bool) :
    (∀ b ∈ removeScope, b.Over [.receiver] fixedWords) ∧
      ∀ use ∈ standingNames (lockStencils threadSafe ++ removeStencils),
        use.Over [.receiver] fixedWords :=
  ⟨by decide, over_locked (by decide) over_stencils.2.2.1 threadSafe⟩

theorem over_forwardBody (threadSafe : Bool) :
    ∀ use ∈ standingNames (lockStencils threadSafe ++
        (loopStencil :: callStencil :: closeStencils)),
      use.Over [.receiver, .entry] ["_"] :=
  over_locked (by decide) over_stencils.2.2.2 threadSafe

/-- The names in the forwarding method: the receiver, the loop variable, and the parameters. -/
theorem over_forward (threadSafe : Bool) (params : List String) :
    (∀ b ∈ forwardScope params, b.Over [.receiver, .entry] ("_" :: params)) ∧
      ∀ use ∈ standingNames (lockStencils threadSafe ++
          (loopStencil :: callStencil :: closeStencils)) ++ params.map .word,
        use.Over [.receiver, .entry] ("_" :: params) := by
  have hparams : ∀ b ∈ params.map Slot.word,
      b.Over [Place.receiver, .entry] ("_" :: params) := by
    intro b hb
    obtain ⟨n, hn, rfl⟩ := List.mem_map.1 hb
    exact ⟨n, List.mem_cons_of_mem _ hn, rfl⟩
  constructor
  · intro b hb
    rcases List.mem_cons.1 hb with rfl | hb
    · simp [Slot.Over]
    rcases List.mem_append.1 hb with hb | hb
    · exact hparams b hb
    · obtain rfl := List.mem_singleton.1 hb
      simp [Slot.Over]
  · intro use huse
    rcases List.mem_append.1 huse with huse | huse
    · exact (over_forwardBody threadSafe use huse).mono (by simp)
    · exact hparams use huse

/-- **No name is captured** if the receiver and the loop variable differ from each other and from
all other names that they are bound with. -/
theorem hygienic_of_ne {t : HookFile} {params : List String} (hreceiver : t.receiver ∉ fixedWords)
    (hentry : t.entry ≠ t.receiver) (hreceiverFree : t.receiver ∉ "_" :: params)
    (hentryFree : t.entry ∉ "_" :: params) :
    t.Hygienic (t.nameAt (.own t.interfaceRef)) params := by
  have happend := over_appendBody t.threadSafe
  have hremove := over_removeBody t.threadSafe
  have hforward := over_forward t.threadSafe params
  have hfixed {bound uses : List (Slot Place)} (hbound : ∀ b ∈ bound, b.Over [.receiver] fixedWords)
      (huses : ∀ use ∈ uses, use.Over [.receiver] fixedWords) :
      Uncaptured (t.nameAt (.own t.interfaceRef)) bound uses :=
    uncaptured_of_over (by simp) (by simpa [nameAt] using hreceiver) hbound huses
  refine ⟨?_, hfixed happend.1 happend.2, ?_, hfixed hremove.1 hremove.2, ?_,
    uncaptured_of_over ?_ ?_ hforward.1 hforward.2⟩
  · rw [appendLines_eq t (.own t.interfaceRef) rfl, ← List.map_append]
    rfl
  · rw [removeLines_eq t (.own t.interfaceRef), ← List.map_append]
    rfl
  · rw [forwardLines_eq t (.own t.interfaceRef)]
    rfl
  · simp [nameAt, hentry, hentry.symm]
  · simp only [List.forall_mem_cons, List.not_mem_nil, false_imp_iff, implies_true, and_true]
    exact ⟨hreceiverFree, hentryFree⟩

end HookFile

/-! ### The names that a plan settles -/

/-- **The receiver and the loop variable are fresh**, and no name in a generated method is captured,
whatever the parameters of the hooked method are called. -/
theorem HookFile.hygienic_of_ofMethod :
    (∀ preferred taken, IsFresh preferred taken (freshName preferred taken)) ∧
      ∀ {config : Config} {method : HookedMethod} {target : Target} {t : HookFile},
        HookFile.ofMethod config method target = .ok t →
          List.Forall₂ (fun declared name => (name ++ " ").toList <+: declared.toList)
            t.declarationArgs method.forwardedNames ∧
          List.Forall₂ (fun passed name => passed = name ∨ passed = name ++ "...")
            t.callArgs method.forwardedNames ∧
          (t.receiver ∉ method.forwardedNames ∧ t.receiver ≠ "item" ∧ t.receiver ≠ "entry") ∧
          (t.entry ∉ method.forwardedNames ∧ t.entry ≠ t.receiver) ∧
          t.Hygienic (t.nameAt (.own t.interfaceRef)) method.forwardedNames := by
  refine ⟨isFresh_freshName, fun {config method target t} h => ?_⟩
  obtain ⟨mentioned, ht⟩ := HookFile.ofMethod_eq_ok h
  have hreceiver : IsFresh "h" (method.forwardedNames ++ ["item", "entry"]) t.receiver := by
    rw [ht]
    exact isFresh_freshName _ _
  have hentry : IsFresh "entry" (method.forwardedNames ++ [t.receiver]) t.entry := by
    rw [ht]
    exact isFresh_freshName _ _
  have hreceiverFree : t.receiver ∉ method.forwardedNames ∧ t.receiver ≠ "item" ∧
      t.receiver ≠ "entry" := by simpa using hreceiver.free
  have hentryFree : t.entry ∉ method.forwardedNames ∧ t.entry ≠ t.receiver := by
    simpa using hentry.free
  have hwords : (∀ n ∈ "_" :: fixedWords, "h" ≠ n ∧ (n.toList.getLast?.any Char.isDigit) = false) ∧
      "entry" ≠ "_" ∧ ("_".toList.getLast?.any Char.isDigit) = false := by decide
  have hreceiverWord {n : String} (hn : n ∈ "_" :: fixedWords) : t.receiver ≠ n :=
    hreceiver.ne (hwords.1 n hn).1 (hwords.1 n hn).2
  have hdeclared : t.declarationArgs = (forwarded 0 method.params).map
      (HookedParam.declaredIn target.destination.path) := by rw [ht]
  have hpassed : t.callArgs = (forwarded 0 method.params).map HookedParam.passed := by rw [ht]
  refine ⟨?_, ?_, hreceiverFree, hentryFree, hygienic_of_ne ?_ hentryFree.2 ?_ ?_⟩
  · rw [hdeclared, HookedMethod.forwardedNames, List.forall₂_map_left_iff,
      List.forall₂_map_right_iff, List.forall₂_same]
    exact fun p _ => p.name_prefix_declaredIn _
  · rw [hpassed, HookedMethod.forwardedNames, List.forall₂_map_left_iff,
      List.forall₂_map_right_iff, List.forall₂_same]
    intro p _
    rcases p.declaredIn_passed target.destination.path with ⟨-, hplain, -⟩ | ⟨_, -, -, hdots, -⟩
    · exact .inl hplain
    · exact .inr hdots
  · exact fun hmem => hreceiverWord (List.mem_cons_of_mem _ hmem) rfl
  · rw [List.mem_cons, not_or]
    exact ⟨hreceiverWord List.mem_cons_self, hreceiverFree.1⟩
  · rw [List.mem_cons, not_or]
    exact ⟨hentry.ne hwords.2.1 hwords.2.2, hentryFree.1⟩

/-- A method whose parameters have the names that the receiver and the loop variable prefer. -/
def meetMethod : HookedMethod where
  name := "Meet"
  params := [⟨"h", .basic "int", false⟩, ⟨"entry", .basic "string", false⟩,
    ⟨"_", .basic "bool", false⟩, ⟨"h1", .slice (.basic "int"), true⟩]

theorem HookFile.hygienic_meetMethod : ∃ t : HookFile,
    HookFile.ofMethod (postConfig ⟨"./box", "Box"⟩) meetMethod
      ⟨⟨"m/box", "box"⟩, ⟨"m/post", "post"⟩⟩ = .ok t ∧ t.receiver = "h2" ∧ t.entry = "entry1" ∧
    t.Hygienic (t.nameAt (.own t.interfaceRef)) meetMethod.forwardedNames := by
  obtain ⟨t, ht, hreceiver, hentry⟩ : ∃ t : HookFile,
      HookFile.ofMethod (postConfig ⟨"./box", "Box"⟩) meetMethod
        ⟨⟨"m/box", "box"⟩, ⟨"m/post", "post"⟩⟩ = .ok t ∧ t.receiver = "h2" ∧ t.entry = "entry1" :=
    ⟨_, rfl, by decide, by decide⟩
  exact ⟨t, ht, hreceiver, hentry, (HookFile.hygienic_of_ofMethod.2 ht).2.2.2.2⟩

end Multicast
