import Multicast.Proofs.HookTypes
import Multicast.Proofs.Stencils

/-!
# The methods of a generated file

All lines of a generated file but those of its types belong to methods, which are skipped when the
file is read. They are skipped up to where they end, if the delimiters in them are closed. Except for
two, the lines of the methods are stencils, so that this can be told from the lines alone. The two are
the declaration of the forwarding method and the call in it, which hold lists of arguments of any
length (`lexes_listed`).

## Counting along lines

A method ends where no delimiter is open, and its lines are written so that this is the last one of them.
The count is kept from line to line: a line that opens the body leaves one brace open, the lines of the
body leave as many open as they find, and the last lines close it. All but the two lines with argument
lists are stencils, for which the count is computed. In the two lines the arguments count for nothing,
since their delimiters are closed.
-/

namespace Multicast

open Source Syntax Multicast.Syntax.Parser

/-! ### Methods

How a method begins and how it ends is checked on the kinds of the words of its lines, by a function that
can be evaluated. -/

/-- The kinds of the words in the receiver of a method of the hook. -/
def ownerKinds : List Kind :=
  [.identifier, .star, .identifier]

/-- **The lines of a method**, which ends where they end. -/
def IsMethod (lines : List String) : Prop :=
  ∃ body, LexesAs lines (methodKinds ownerKinds body) ∧ nest 0 body = some 0

/-- The kinds of the words of a method up to its name. -/
def headKinds : List Kind :=
  Kind.keyword .funcKw :: Kind.leftParen :: (ownerKinds ++ [Kind.rightParen, .identifier])

/-- Whether words of these kinds begin a method and open its body. -/
def opensMethod (ks : List Kind) : Bool :=
  ks == headKinds ++ ks.drop headKinds.length && nest 0 (ks.drop headKinds.length) == some 1

/-- Whether words of these kinds close the body of a method, and are its last. -/
def closesMethod (ks : List Kind) : Bool :=
  ks == ks.dropLast ++ [Kind.semicolon] && nest 1 ks.dropLast == some 0

/-- **A method** has a line that opens its body, lines that leave it open, and lines that close it. -/
theorem isMethod_of_opened {front inner back : List String} {opening kinds closing : List Kind}
    (hfront : LexesAs front opening) (hopens : opensMethod opening = true)
    (hinner : LexesAs inner kinds) (hopen : nest 1 kinds = some 1)
    (hback : LexesAs back closing) (hcloses : closesMethod closing = true) :
    IsMethod (front ++ (inner ++ back)) := by
  simp only [opensMethod, closesMethod, Bool.and_eq_true, beq_iff_eq] at hopens hcloses
  refine ⟨opening.drop headKinds.length ++ (kinds ++ closing.dropLast), ?_, ?_⟩
  · have hlines := hfront.append (hinner.append hback)
    rw [hopens.1, hcloses.1] at hlines
    simpa [methodKinds, headKinds] using hlines
  · simp only [nest_append, hopens.2, hopen, hcloses.2, Option.bind_some]

/-- The lines of a method are skipped when a file is read. -/
theorem IsMethod.skipped {lines : List String} (h : IsMethod lines) {scope : Scope}
    {more : List Word} {post : List Declaration → List String → Prop}
    (hmore : Declares scope more post) :
    ∃ words, LexesAll lines words ∧ Declares scope (words ++ more) post := by
  obtain ⟨body, ⟨words, hlexes, hkinds⟩, hbody⟩ := h
  exact ⟨words, hlexes, .method hkinds (by decide) hbody hmore⟩

/-- A line without words above a method does not matter. -/
theorem IsMethod.below {line : String} {lines : List String} (h : IsMethod lines)
    (hline : Lexes line []) : IsMethod (line :: lines) := by
  obtain ⟨body, hlexes, hbody⟩ := h
  exact ⟨body, .cons hline hlexes, hbody⟩

/-! ### Arguments

An argument can stand in a list if it is made of pieces that stay what they are in front of a comma or a
parenthesis, and if its delimiters are closed. -/

/-- **Arguments as they can stand in a list**: cut into pieces, with their delimiters closed. -/
def Listable (args : List String) : Prop :=
  ∀ arg ∈ args, ∃ ps, arg.toList = textOf ps ∧ Stable ps ∧ Balanced (kindsOf ps)

theorem Listable.pieces {args : List String} (h : Listable args) :
    ∃ pss : List (List Piece), args.map String.toList = pss.map textOf ∧
      (∀ ps ∈ pss, Stable ps) ∧ ∀ ps ∈ pss, Balanced (kindsOf ps) := by
  induction args with
  | nil => exact ⟨[], rfl, by simp, by simp⟩
  | cons arg args ih =>
    obtain ⟨ps, htext, hstable, hbalanced⟩ := h arg List.mem_cons_self
    obtain ⟨pss, htexts, hstables, hbalances⟩ := ih fun other hother =>
      h other (List.mem_cons_of_mem _ hother)
    exact ⟨ps :: pss, by rw [List.map_cons, List.map_cons, htext, htexts],
      List.forall_mem_cons.2 ⟨hstable, hstables⟩, List.forall_mem_cons.2 ⟨hbalanced, hbalances⟩⟩

/-- A line that goes on with a list of arguments behind a name. -/
theorem lexes_listed {ι : Type} {names : ι → String}
    (hnames : ∀ place, Kind.identifier.Writes (names place)) {stencil : Stencil ι}
    (hsound : stencil.isSound = true) {place : ι}
    (hlast : stencil.slots.getLast? = some (.name place)) {args : List String}
    (hargs : Listable args) {line : String} {tail : List Piece} (htail : Free tail)
    (hline : line.toList =
      (stencil.fill names).toList ++ (("(" ++ ", ".intercalate args ++ ")").toList ++ textOf tail)) :
    ∃ words ks, Lexes line words ∧ Balanced ks ∧ words.map Word.kind =
      kindsOf (stencil.pieces fun _ => "") ++ ((.leftParen :: (ks ++ [.rightParen])) ++
        (kindsOf tail ++ (closing (endsAfter true tail)).map Word.kind)) := by
  obtain ⟨pss, htext, hstable, hbalanced⟩ := hargs.pieces
  have hall : Stable (stencil.pieces names ++ (listPieces pss ++ tail)) :=
    (stable_pieces hsound hnames hlast).append ((free_list hstable).append htail).stable
      (divided_cons (by decide))
  refine ⟨_, _, hall.lexes ?_, balanced_listed hbalanced, ?_⟩
  · rw [textOf_append, textOf_append, ← toList_fill hsound, ← toList_list htext, hline]
  · have hends : endsAfter (endsAfter false (stencil.pieces names)) (listPieces pss) = true := by
      rw [listPieces, List.cons_append, ← List.cons_append, endsAfter_append]
      rfl
    rw [hall.wordsOfText, endsAfter_append, endsAfter_append, hends, List.map_append, ← kindsOf,
      kindsOf_append, kindsOf_append, kindsOf_list, kindsOf_pieces fun _ => "",
      List.append_assoc, List.append_assoc]

/-! ### Lines of methods -/

/-- What goes to the places in the lines of a generated file. -/
inductive Place
  | receiver
  | hook
  | package
  | interface
  | method
  | entry
  deriving DecidableEq

namespace InterfaceRef

/-- The references with places for their names. -/
def stencils : List (Stencil Place) :=
  [[.name .interface], [.name .package, .text ".", .name .interface]]

/-- A reference with places for its names. -/
def stencil : InterfaceRef → Stencil Place
  | own _ => [.name .interface]
  | imported _ _ => [.name .package, .text ".", .name .interface]

theorem stencil_mem (ref : InterfaceRef) : ref.stencil ∈ stencils := by
  cases ref <;> simp [stencil, stencils]

/-- The name of the interface. -/
def name : InterfaceRef → String
  | own name => name
  | imported _ name => name

/-- The name that a reference begins with. -/
def first : InterfaceRef → String
  | own name => name
  | imported package _ => package

end InterfaceRef

namespace HookFile

/-- The name for a place, when the interface is referred to as `ref`. -/
def nameAt (t : HookFile) (ref : InterfaceRef) : Place → String
  | .receiver => t.receiver
  | .hook => t.hookName
  | .package => ref.first
  | .interface => ref.name
  | .method => t.methodName
  | .entry => t.entry

/-- The beginning of a method, up to what stands behind its receiver. -/
def openStencil (rest : Stencil Place) : Stencil Place :=
  .text "func (" :: .name .receiver :: .text " *" :: .name .hook :: .text ") " :: rest

/-- The lines that take the mutex. -/
def lockStencils (threadSafe : Bool) : List (Stencil Place) :=
  if threadSafe then
    [[.text "\t", .name .receiver, .text ".mu.Lock()"],
      [.text "\tdefer ", .name .receiver, .text ".mu.Unlock()"],
      []]
  else []

/-- The line that opens the method that appends an entry. -/
def appendStencil (interface : Stencil Place) : Stencil Place :=
  openStencil (.text "Append(item " :: (interface ++ [.text ") Cancel \x7b"]))

/-- The lines of that method behind those that take the mutex. -/
def appendStencils : List (Stencil Place) :=
  [[.text "\tentry := &hooked\x7bitem\x7d"],
    [.text "\t", .name .receiver, .text ".list = append(", .name .receiver,
      .text ".list, entry)"],
    [],
    [.text "\treturn func() \x7b ", .name .receiver, .text ".remove(entry) \x7d"],
    [.text "\x7d"],
    []]

/-- The line that opens the method that removes an entry. -/
def removeStencil : Stencil Place :=
  openStencil [.text "remove(entry *hooked) \x7b"]

/-- The lines of that method behind those that take the mutex. -/
def removeStencils : List (Stencil Place) :=
  [[.text "\tfor i := range ", .name .receiver, .text ".list \x7b"],
    [.text "\t\tif ", .name .receiver, .text ".list[i] == entry \x7b"],
    [.text "\t\t\t", .name .receiver, .text ".list = append(", .name .receiver,
      .text ".list[:i], ", .name .receiver, .text ".list[i+1:]...)"],
    [.text "\t\t\tbreak"],
    [.text "\t\t\x7d"],
    [.text "\t\x7d"],
    [.text "\x7d"],
    []]

/-- The line of the loop over all entries. -/
def loopStencil : Stencil Place :=
  [.text "\tfor _, ", .name .entry, .text " := range ", .name .receiver, .text ".list \x7b"]

/-- The line that forwards to an entry, up to the arguments. -/
def callStencil : Stencil Place :=
  [.text "\t\t", .name .entry, .text ".", .name .method]

/-- The lines that close the loop and the method. -/
def closeStencils : List (Stencil Place) :=
  [[.text "\t\x7d"], [.text "\x7d"]]

section

variable (t : HookFile) (ref : InterfaceRef)

theorem lockLines_eq :
    t.lockLines = (lockStencils t.threadSafe).map (Stencil.fill (t.nameAt ref)) := by
  rw [lockLines, lockStencils]
  split <;> simp [Stencil.fill, Segment.fill, nameAt, ← String.toList_inj]

theorem appendLines_eq (href : ref.text = t.interfaceRef) : t.appendLines =
    "// Append registers item and returns a Cancel that removes it again." ::
      (([appendStencil ref.stencil].map (Stencil.fill (t.nameAt ref))) ++
        ((lockStencils t.threadSafe).map (Stencil.fill (t.nameAt ref)) ++
          appendStencils.map (Stencil.fill (t.nameAt ref)))) := by
  rw [appendLines, lockLines_eq t ref]
  cases ref <;> simp [appendStencil, appendStencils, methodLine, openStencil, Stencil.fill,
    Segment.fill, nameAt, InterfaceRef.stencil, InterfaceRef.name, InterfaceRef.first, ← href,
    InterfaceRef.text, ← String.toList_inj]

theorem removeLines_eq : t.removeLines = [removeStencil].map (Stencil.fill (t.nameAt ref)) ++
    ((lockStencils t.threadSafe).map (Stencil.fill (t.nameAt ref)) ++
      removeStencils.map (Stencil.fill (t.nameAt ref))) := by
  rw [removeLines, lockLines_eq t ref]
  simp [removeStencil, removeStencils, methodLine, openStencil, Stencil.fill, Segment.fill, nameAt,
    ← String.toList_inj]

end

-- all stencils are evaluated in one go: what is found out about a character is not looked up again
/-- The lines of the methods are sound. Those that take the mutex leave open what is open, and the others
open and close the methods. -/
theorem methodStencils_sound :
    ((lockStencils true).all Stencil.isSound = true ∧
      nest 1 ((lockStencils true).flatMap Stencil.kinds) = some 1) ∧
    (∀ interface ∈ InterfaceRef.stencils, (appendStencil interface).isSound = true ∧
      opensMethod (appendStencil interface).kinds = true) ∧
    (appendStencils.all Stencil.isSound = true ∧
      closesMethod (appendStencils.flatMap Stencil.kinds) = true) ∧
    (removeStencil.isSound = true ∧ opensMethod removeStencil.kinds = true) ∧
    removeStencils.all Stencil.isSound = true ∧
      closesMethod (removeStencils.flatMap Stencil.kinds) = true := by
  simp only [lockStencils, InterfaceRef.stencils, appendStencil, appendStencils, removeStencil,
    removeStencils, openStencil, if_true, List.forall_mem_cons, List.all_cons, List.all_nil,
    List.flatMap_cons, List.flatMap_nil, List.cons_append, List.nil_append, Stencil.isSound,
    Stencil.kinds, Stencil.pieces, Stencil.slots, Segment.isCut, Segment.slots, split_eq_splitFast 40]
  repeat rw [String.toList_ofList]
  decide +kernel

/-- The lines that take the mutex leave open what is open. -/
theorem lockStencils_sound (threadSafe : Bool) :
    (lockStencils threadSafe).all Stencil.isSound = true ∧
      nest 1 ((lockStencils threadSafe).flatMap Stencil.kinds) = some 1 := by
  cases threadSafe with
  | false => exact ⟨rfl, rfl⟩
  | true => exact methodStencils_sound.1

section

variable {t : HookFile} {ref : InterfaceRef}
  (hnames : ∀ place, Kind.identifier.Writes (t.nameAt ref place))

include hnames

/-- A method whose lines are stencils. -/
theorem isMethod_of_stencils {front : Stencil Place} {back : List (Stencil Place)}
    (hfront : front.isSound = true ∧ opensMethod front.kinds = true)
    (hback : back.all Stencil.isSound = true ∧ closesMethod (back.flatMap Stencil.kinds) = true) :
    IsMethod ([front].map (Stencil.fill (t.nameAt ref)) ++
      ((lockStencils t.threadSafe).map (Stencil.fill (t.nameAt ref)) ++
        back.map (Stencil.fill (t.nameAt ref)))) := by
  have hlock := lockStencils_sound t.threadSafe
  refine isMethod_of_opened (lexesAs_fill hnames ?_) ?_ (lexesAs_fill hnames hlock.1) hlock.2
    (lexesAs_fill hnames hback.1) hback.2
  · simpa using hfront.1
  · simpa using hfront.2

theorem isMethod_appendLines (href : ref.text = t.interfaceRef) : IsMethod t.appendLines := by
  obtain ⟨-, hfront, hback, -⟩ := methodStencils_sound
  rw [appendLines_eq t ref href]
  exact (isMethod_of_stencils hnames (hfront _ ref.stencil_mem) hback).below
    (lexes_comment rfl (by decide))

theorem isMethod_removeLines : IsMethod t.removeLines := by
  obtain ⟨-, -, -, hfront, hback⟩ := methodStencils_sound
  rw [removeLines_eq t ref]
  exact isMethod_of_stencils hnames hfront hback

end

/-! ### The forwarding method

The declaration and the call hold one argument for each parameter. What is known of one argument carries
over to the list by induction on the parameters. -/

/-- The kinds of the words in the line of the loop, but for the brace. -/
def loopKinds : List Kind :=
  [.keyword .forKw, .identifier, .comma, .identifier, .operator, .keyword .rangeKw, .identifier,
    .dot, .identifier]

/-- The kinds of the words behind the name of the forwarding method, given those of its lists of
arguments and of the lines that take the mutex. -/
def forwardBody (lock params args : List Kind) : List Kind :=
  (Kind.leftParen :: (params ++ [Kind.rightParen])) ++
    (Kind.leftBrace :: ((lock ++ (loopKinds ++ ((Kind.leftBrace ::
      (([Kind.identifier, .dot, .identifier] ++
        ((Kind.leftParen :: (args ++ [Kind.rightParen])) ++ [Kind.semicolon])) ++
          [Kind.rightBrace])) ++ [Kind.semicolon]))) ++ [Kind.rightBrace]))

/-- The lines of the forwarding method are sound, up to its lists of parameters and of arguments. -/
theorem forwardStencils_sound :
    ((openStencil [.name .method]).isSound = true ∧
      (openStencil [.name .method]).slots.getLast? = some (.name .method) ∧
      kindsOf ((openStencil [.name .method]).pieces fun _ => "") = .keyword .funcKw ::
        .leftParen :: (ownerKinds ++ [.rightParen, .identifier])) ∧
    (callStencil.isSound = true ∧ callStencil.slots.getLast? = some (.name .method) ∧
      kindsOf (callStencil.pieces fun _ => "") = [.identifier, .dot, .identifier]) ∧
    ([loopStencil].all Stencil.isSound = true ∧
      [loopStencil].flatMap Stencil.kinds = loopKinds ++ [.leftBrace]) ∧
    closeStencils.all Stencil.isSound = true ∧
      closeStencils.flatMap Stencil.kinds = [.rightBrace, .semicolon, .rightBrace, .semicolon] := by
  simp only [openStencil, callStencil, loopStencil, closeStencils, List.all_cons, List.all_nil,
    List.flatMap_cons, List.flatMap_nil, Stencil.isSound, Stencil.kinds, Stencil.pieces,
    Stencil.slots, Segment.isCut, Segment.slots, split_eq_splitFast 40]
  repeat rw [String.toList_ofList]
  decide +kernel

/-- The forwarding method ends where its body is closed. -/
theorem nest_forwardBody {lock params args : List Kind} (hlock : Balanced lock)
    (hparams : Balanced params) (hargs : Balanced args) :
    nest 0 (forwardBody lock params args) = some 0 := by
  have hend : Balanced [.semicolon] := balanced_of_nest rfl
  have hcalled : Balanced (Kind.leftParen :: (args ++ [Kind.rightParen])) :=
    hargs.enclosed rfl ⟨rfl, rfl⟩
  have hcall : Balanced ([Kind.identifier, .dot, .identifier] ++
      ((Kind.leftParen :: (args ++ [Kind.rightParen])) ++ [Kind.semicolon])) :=
    .append (balanced_of_nest rfl) (hcalled.append hend)
  have hblock : Balanced (Kind.leftBrace :: (([Kind.identifier, .dot, .identifier] ++
      ((Kind.leftParen :: (args ++ [Kind.rightParen])) ++ [Kind.semicolon])) ++
        [Kind.rightBrace])) :=
    hcall.enclosed rfl ⟨rfl, rfl⟩
  have hhead : Balanced loopKinds := balanced_of_nest rfl
  have hloop := hhead.append (hblock.append hend)
  rw [forwardBody, nest_append, hparams.nest_zero (by decide) (by decide)]
  exact (hlock.append hloop).nest_zero (by decide) (by decide)

/-- The line that declares the forwarding method. -/
def declarationLine (t : HookFile) : String :=
  t.methodLine (t.methodName ++ "(" ++ ", ".intercalate t.declarationArgs ++ ")")

/-- The line that calls an entry. -/
def callLine (t : HookFile) : String :=
  "\t\t" ++ t.entry ++ "." ++ t.methodName ++ "(" ++ ", ".intercalate t.callArgs ++ ")"

theorem forwardLines_eq (t : HookFile) (ref : InterfaceRef) : t.forwardLines =
    ("// " ++ t.methodName ++ " calls " ++ t.methodName ++ " on every appended entry.") ::
      t.declarationLine ::
        ((lockStencils t.threadSafe ++ [loopStencil]).map (Stencil.fill (t.nameAt ref)) ++
          t.callLine :: closeStencils.map (Stencil.fill (t.nameAt ref))) := by
  simp [forwardLines, declarationLine, callLine, lockLines_eq t ref, loopStencil, closeStencils,
    Stencil.fill, Segment.fill, nameAt, ← String.toList_inj]

section

variable {t : HookFile} {ref : InterfaceRef}
  (hnames : ∀ place, Kind.identifier.Writes (t.nameAt ref place))

include hnames

theorem lexes_declarationLine (hargs : Listable t.declarationArgs) :
    ∃ words params, Lexes t.declarationLine words ∧ Balanced params ∧
      words.map Word.kind = Kind.keyword .funcKw :: Kind.leftParen :: (ownerKinds ++
        Kind.rightParen :: Kind.identifier ::
          ((Kind.leftParen :: (params ++ [Kind.rightParen])) ++ [Kind.leftBrace])) := by
  have hopen := forwardStencils_sound.1
  have hline : t.declarationLine.toList = ((openStencil [.name .method]).fill (t.nameAt ref)).toList ++
      (("(" ++ ", ".intercalate t.declarationArgs ++ ")").toList ++
        textOf ([.space] ++ [.leftBrace])) := by
    simp [declarationLine, methodLine, openStencil, Stencil.fill, Segment.fill, nameAt]
  obtain ⟨words, params, hlexes, hparams, hkinds⟩ := lexes_listed hnames hopen.1 hopen.2.1 hargs
    (free_space.append free_leftBrace) hline
  refine ⟨words, params, hlexes, hparams, hkinds.trans ?_⟩
  rw [hopen.2.2]
  simp [endsAfter, closing, Word.endsStatement, Kind.endsStatement]

theorem lexes_callLine (hargs : Listable t.callArgs) :
    ∃ words args, Lexes t.callLine words ∧ Balanced args ∧
      words.map Word.kind = [Kind.identifier, .dot, .identifier] ++
        ((Kind.leftParen :: (args ++ [Kind.rightParen])) ++ [Kind.semicolon]) := by
  have hcallee := forwardStencils_sound.2.1
  have hline : t.callLine.toList = (callStencil.fill (t.nameAt ref)).toList ++
      (("(" ++ ", ".intercalate t.callArgs ++ ")").toList ++ textOf []) := by
    simp [callLine, callStencil, Stencil.fill, Segment.fill, nameAt]
  obtain ⟨words, args, hlexes, hargs, hkinds⟩ := lexes_listed hnames hcallee.1 hcallee.2.1 hargs
    free_nil hline
  refine ⟨words, args, hlexes, hargs, hkinds.trans ?_⟩
  rw [hcallee.2.2]
  simp [endsAfter, closing, Word.lineEnd]

/-- The method that forwards is skipped too, whatever its arguments are. -/
theorem isMethod_forwardLines (hdeclared : Listable t.declarationArgs) (hcall : Listable t.callArgs) :
    IsMethod t.forwardLines := by
  obtain ⟨-, -, hloop, hclose⟩ := forwardStencils_sound
  obtain ⟨hlock, hopen⟩ := lockStencils_sound t.threadSafe
  obtain ⟨front, params, hfront, hparams, hfrontKinds⟩ := lexes_declarationLine hnames hdeclared
  obtain ⟨call, args, hcalls, hargs, hcallKinds⟩ := lexes_callLine hnames hcall
  have hlines := LexesAs.cons hfront (((lexesAs_fill hnames hlock).append
    (lexesAs_fill hnames hloop.1)).append (.cons hcalls (lexesAs_fill hnames hclose.1)))
  rw [hfrontKinds, hloop.2, hcallKinds, hclose.2, ← List.map_append] at hlines
  have hcomment : Lexes ("// " ++ t.methodName ++ " calls " ++ t.methodName ++
      " on every appended entry.") [] := by
    have hmethod : '\n' ∉ t.methodName.toList := newline_not_mem_of_writes (hnames .method)
    have hline : ("// " ++ t.methodName ++ " calls " ++ t.methodName ++
        " on every appended entry.").toList = '/' :: '/' :: (' ' :: t.methodName.toList ++
          " calls ".toList ++ t.methodName.toList ++ " on every appended entry.".toList) := by
      simp
    exact lexes_comment hline (by simp [hmethod])
  rw [forwardLines_eq t ref]
  refine IsMethod.below ⟨forwardBody _ params args, ?_,
    nest_forwardBody (balanced_of_nest hopen) hparams hargs⟩ hcomment
  simpa [methodKinds, forwardBody] using hlines

end

end HookFile

end Multicast
