import Multicast.Proofs.Lines

/-!
# The types of a generated file

A generated file declares three types: the hook, the type of its entries, and the type of the function
that removes an entry. The first two are structs with a line for each field, and unlike the types that
the printer writes, these lines end in a line end also before the closing brace. Here is what the
words of the three types are read as, and which names are left open by it.

## A struct, line by line

Each line of a struct has words, a field that is read from them, and names that are left open: the names
of types of the own package. The words of the struct are those of its lines, with a line end behind each.
So the three types are read by reading their lines, and which names they leave open is collected from the
lines. The interface may be one of the own package, of an import, or predeclared; only in the first case
its name is left open.
-/

namespace Multicast

open Source Syntax Multicast.Syntax.Parser

/-! ### Structs with a line for each field -/

/-- A line of a struct: its words, what is read from them, and the names that are left open. -/
structure FieldLine where
  words : List Word
  fields : List Field
  names : List String

namespace FieldLine

/-- The words of lines up to the brace behind them. -/
def wordsOfAll (ls : List FieldLine) : List Word :=
  ls.flatMap (fun l => l.words ++ [.lineEnd]) ++ [⟨.rightBrace, "\x7d"⟩]

/-- A line is read as it says by a reader of types. -/
structure Read (type : Parser GoType) (l : FieldLine) : Prop where
  read : (Syntax.fields type).Reports l.words (fun fs names => fs = l.fields ∧ names = l.names)
    (· = some .semicolon)
  start : ∃ w ws, l.words = w :: ws ∧ w.kind ≠ .semicolon ∧ w.kind ≠ .rightBrace

end FieldLine

section

variable {type : Parser GoType} {ls : List FieldLine} {follow : Option Kind → Prop}

theorem reports_fieldLines (h : ∀ l ∈ ls, l.Read type) {n : Nat} (hn : ls.length < n) :
    (braced (Syntax.fields type) n).Reports (FieldLine.wordsOfAll ls)
      (fun fss names => fss = ls.map FieldLine.fields ∧ names = ls.flatMap FieldLine.names)
      follow := by
  induction ls generalizing n with
  | nil =>
    obtain ⟨n, rfl⟩ := Nat.exists_eq_succ_of_ne_zero (Nat.ne_zero_of_lt hn)
    exact .skipSemicolons (by simp [FieldLine.wordsOfAll]) (.accept_eq rfl (.pure ⟨rfl, rfl⟩))
  | cons l ls ih =>
    obtain ⟨n, rfl⟩ := Nat.exists_eq_succ_of_ne_zero (Nat.ne_zero_of_lt hn)
    obtain ⟨hl, hls⟩ := List.forall_mem_cons.1 h
    obtain ⟨w, ws, hstart, hsemicolon, hbrace⟩ := hl.start
    have hwords : FieldLine.wordsOfAll (l :: ls) =
        l.words ++ .lineEnd :: FieldLine.wordsOfAll ls := by
      simp [FieldLine.wordsOfAll]
    rw [hwords]
    refine .skipSemicolons (by simp [hstart, hsemicolon]) (.accept_ne (by simp [hstart, hbrace]) ?_)
    refine hl.read.bind (fun _ _ => rfl) ?_
    rintro _ _ ⟨rfl, rfl⟩
    refine .at_ne (by simp [Word.lineEnd]) (.expect rfl fun _ _ => ?_)
    refine (ih hls (Nat.lt_of_succ_lt_succ hn)).map ?_
    rintro _ _ ⟨rfl, rfl⟩
    exact .pure ⟨rfl, by simp⟩

theorem FieldLine.length_le : ls.length ≤ (FieldLine.wordsOfAll ls).length := by
  induction ls with
  | nil => exact Nat.zero_le _
  | cons l ls ih =>
    simp [FieldLine.wordsOfAll] at ih ⊢
    omega

/-- The words of a struct with these lines. -/
def structWords (ls : List FieldLine) : List Word :=
  ⟨.keyword .structKw, "struct"⟩ :: ⟨.leftBrace, "\x7b"⟩ :: FieldLine.wordsOfAll ls

/-- **A struct is read line by line**, if its lines are read with a budget of so many levels. -/
theorem reports_struct {scope : Scope} {levels : Nat}
    (h : ∀ n, levels < n → ∀ l ∈ ls, l.Read (typeWithin scope n))
    (hlevels : levels < (FieldLine.wordsOfAll ls).length) :
    (typeExpr scope).Reports (structWords ls) (fun t names =>
      t = .struct (ls.flatMap FieldLine.fields) ∧ names = ls.flatMap FieldLine.names) follow := by
  refine .bounded fun n hn => ?_
  obtain ⟨n, rfl⟩ := Nat.exists_eq_succ_of_ne_zero (Nat.ne_zero_of_lt hn)
  simp only [structWords, List.length_cons] at hn
  have hread : (bounded (braced (Syntax.fields (typeWithin scope n)))).Reports (FieldLine.wordsOfAll ls)
      (fun fss names => fss = ls.map FieldLine.fields ∧ names = ls.flatMap FieldLine.names)
      follow := by
    refine .bounded fun m hm => reports_fieldLines (h n (by omega)) ?_
    exact FieldLine.length_le.trans_lt hm
  have hbody : (structBody (typeWithin scope n)).Reports
      (⟨.leftBrace, "\x7b"⟩ :: FieldLine.wordsOfAll ls)
      (fun fs names => fs = ls.flatMap FieldLine.fields ∧ names = ls.flatMap FieldLine.names)
      follow := by
    refine .expect rfl fun _ _ => hread.map ?_
    rintro _ _ ⟨rfl, rfl⟩
    exact .pure ⟨List.flatMap_def.symm, List.append_nil _⟩
  refine .peek fun _ _ => .skip (hbody.map ?_)
  rintro _ _ ⟨rfl, rfl⟩
  exact .pure ⟨rfl, List.append_nil _⟩

/-! ### Fields

The types of the fields are those of the template: a slice of pointers to entries, the type of the mutex,
and the interface. Each has its words. -/

theorem endsType_of_semicolon (next : Option Kind) (h : next = some .semicolon) :
    endsType next = true := by
  rw [h]
  rfl

/-- A line with a name and a type. -/
theorem FieldLine.read_named {n : String} {words : List Word} {t : GoType} {names : List String}
    (htype : type.Reports words (fun s ns => s = t ∧ ns = names) (endsType ·))
    (hstart : ∃ w ws, words = w :: ws ∧ w.kind ≠ .comma ∧ endsEmbedded w.kind = false) :
    FieldLine.Read type ⟨⟨.identifier, n⟩ :: words, [⟨some n, t, none⟩], names⟩ where
  start := ⟨_, _, rfl, by simp, by simp⟩
  read := by
    obtain ⟨w, ws, rfl, hcomma, hembedded⟩ := hstart
    refine .peek fun _ _ => .peek_one fun _ _ => ?_
    rw [leading_cons, if_neg (by simp [hembedded])]
    have hread : (namedFields type).Reports ([⟨.identifier, n⟩] ++ (w :: ws))
        (fun fs ns => fs = [⟨some n, t, none⟩] ∧ ns = names) (· = some .semicolon) := by
      refine (reports_names n).bind (fun _ _ => by simpa using hcomma) ?_
      rintro ts _ ⟨hts, rfl⟩
      refine (htype.imp (fun _ _ h => h) endsType_of_semicolon).map ?_
      rintro _ _ ⟨rfl, rfl⟩
      refine ((reports_tag none).imp (fun _ _ h => h) fun _ h => .inl h).map ?_
      rintro _ _ ⟨rfl, rfl⟩
      obtain ⟨u, rfl, rfl⟩ := List.map_eq_singleton_iff.1 hts
      exact .pure ⟨rfl, by simp⟩
    exact hread

/-- A line with an embedded type. -/
theorem FieldLine.read_embedded {n : String} {words : List Word} {t : GoType} {names : List String}
    (htype : type.Reports (⟨.identifier, n⟩ :: words) (fun s ns => s = t ∧ ns = names) (endsType ·))
    (hends : (leading words (some .semicolon)).any endsEmbedded = true) :
    FieldLine.Read type ⟨⟨.identifier, n⟩ :: words, [⟨none, t, none⟩], names⟩ where
  start := ⟨_, _, rfl, by simp, by simp⟩
  read := by
    refine .peek fun _ _ => .peek_one fun next hnext => ?_
    subst hnext
    rw [hends, if_pos rfl]
    have hread : (embeddedField type).Reports (⟨.identifier, n⟩ :: words)
        (fun fs ns => fs = [⟨none, t, none⟩] ∧ ns = names) (· = some .semicolon) := by
      refine (htype.imp (fun _ _ h => h) endsType_of_semicolon).map ?_
      rintro _ _ ⟨rfl, rfl⟩
      refine ((reports_tag none).imp (fun _ _ h => h) fun _ h => .inl h).map ?_
      rintro _ _ ⟨rfl, rfl⟩
      exact .pure ⟨rfl, by simp⟩
    exact hread

end

/-! ### The interface -/

/-- How a generated file refers to the interface: by its name alone, or behind the name of an
import. -/
inductive InterfaceRef
  | own (name : String)
  | imported (package name : String)

namespace InterfaceRef

/-- A reference as it is written. -/
def text : InterfaceRef → String
  | own name => name
  | imported package name => package ++ "." ++ name

/-- A reference in pieces. -/
def pieces : InterfaceRef → List Piece
  | own name => [.name name]
  | imported package name => [.name package, .dot, .name name]

/-- A reference in words. -/
def words : InterfaceRef → List Word
  | own name => [⟨.identifier, name⟩]
  | imported package name => [⟨.identifier, package⟩, ⟨.dot, "."⟩, ⟨.identifier, name⟩]

/-- The names that a reference leaves open. -/
def openNames : InterfaceRef → List String
  | own name => Syntax.openNames name
  | imported .. => []

/-- **What a reference means** in a file. -/
inductive Means (scope : Scope) : InterfaceRef → GoType → Prop
  | own (name : String) : Means scope (own name) (scope.meaning name)
  | imported {q : String} {package : PackageId} (h : scope.import? q = some package)
      (name : String) : Means scope (imported q name) (.named package name)

/-- A reference is made of names. -/
def Spelled : InterfaceRef → Prop
  | own name => Kind.identifier.Writes name
  | imported package name => Kind.identifier.Writes package ∧ Kind.identifier.Writes name

theorem toList_text (ref : InterfaceRef) : ref.text.toList = textOf ref.pieces := by
  cases ref <;> simp [text, pieces]

theorem lexemes_pieces (ref : InterfaceRef) : lexemes ref.pieces = ref.words := by
  cases ref <;> simp [lexemes, pieces, words]

theorem Spelled.stable {ref : InterfaceRef} (h : ref.Spelled) : Stable ref.pieces := by
  cases ref with
  | own name => exact stable_name h
  | imported package name => exact stable_dotted h.1 h.2

theorem Spelled.newline_not_mem {ref : InterfaceRef} (h : ref.Spelled) :
    '\n' ∉ ref.text.toList := by
  cases ref with
  | own name => exact newline_not_mem_of_writes h
  | imported package name =>
    simp [text, newline_not_mem_of_writes h.1, newline_not_mem_of_writes h.2]

/-- The line of a struct that embeds the interface. -/
theorem read_embedded {scope : Scope} {ref : InterfaceRef} {type : GoType}
    (h : ref.Means scope type) (n : Nat) :
    FieldLine.Read (typeWithin scope (n + 1)) ⟨ref.words, [⟨none, type, none⟩], ref.openNames⟩ := by
  cases h with
  | own name => exact FieldLine.read_embedded (.peek fun _ _ => reports_typeName_local name) rfl
  | imported hq name =>
    exact FieldLine.read_embedded (.peek fun _ _ => reports_typeName_qualified hq name ".") rfl

end InterfaceRef

/-! ### The three types -/

namespace HookFile

variable {scope : Scope} {mutex : PackageId} {ref : InterfaceRef} {interface : GoType}

/-- The lines of the hook. -/
def hookFields (own mutex : PackageId) (threadSafe : Bool) : List FieldLine :=
  ⟨[⟨.identifier, "list"⟩, ⟨.leftBracket, "["⟩, ⟨.rightBracket, "]"⟩, ⟨.star, "*"⟩,
      ⟨.identifier, "hooked"⟩],
    [⟨some "list", .slice (.pointer (.named own "hooked")), none⟩], ["hooked"]⟩ ::
  if threadSafe then
    [⟨[⟨.identifier, "mu"⟩, ⟨.identifier, "sync"⟩, ⟨.dot, "."⟩, ⟨.identifier, "Mutex"⟩],
      [⟨some "mu", .named mutex "Mutex", none⟩], []⟩]
  else []

/-- The only line of an entry. -/
def entryFields (interface : GoType) (ref : InterfaceRef) : List FieldLine :=
  [⟨ref.words, [⟨none, interface, none⟩], ref.openNames⟩]

/-- The type of a function without parameters and results, in words. -/
def cancelWords : List Word :=
  [⟨.keyword .funcKw, "func"⟩, ⟨.leftParen, "("⟩, ⟨.rightParen, ")"⟩]

/-- **The objects that a generated file declares** in the package `own`, when its interface is
`interface`, and when it imports the package of the mutex as `mutex`. -/
def objects (t : HookFile) (own mutex : PackageId) (interface : GoType) : List Object := [
  ⟨t.hookName, .type (.struct (⟨some "list", .slice (.pointer (.named own "hooked")), none⟩ ::
    if t.threadSafe then [⟨some "mu", .named mutex "Mutex", none⟩] else [])) false⟩,
  ⟨"hooked", .type (.struct [⟨none, interface, none⟩]) false⟩,
  ⟨"Cancel", .type (.func ⟨[], [], false⟩) true⟩]

theorem fields_hookFields (own mutex : PackageId) (threadSafe : Bool) :
    (hookFields own mutex threadSafe).flatMap FieldLine.fields =
      ⟨some "list", .slice (.pointer (.named own "hooked")), none⟩ ::
        if threadSafe then [⟨some "mu", .named mutex "Mutex", none⟩] else [] := by
  cases threadSafe <;> rfl

theorem read_hookFields {threadSafe : Bool}
    (hmutex : threadSafe = true → scope.import? "sync" = some mutex) {n : Nat} (hn : 2 < n) :
    ∀ l ∈ hookFields scope.package mutex threadSafe, l.Read (typeWithin scope n) := by
  obtain ⟨n, rfl⟩ := Nat.exists_eq_add_of_lt hn
  intro l hl
  rcases List.mem_cons.1 hl with rfl | hl
  · refine FieldLine.read_named ?_ ⟨_, _, rfl, by simp, rfl⟩
    have hname : scope.typeName.Reports [⟨.identifier, "hooked"⟩]
        (fun t names => t = .named scope.package "hooked" ∧ names = ["hooked"]) (endsType ·) :=
      reports_typeName_local "hooked"
    have hpointer : (typeWithin scope (n + 2)).Reports [⟨.star, "*"⟩, ⟨.identifier, "hooked"⟩]
        (fun t names => t = .pointer (.named scope.package "hooked") ∧ names = ["hooked"])
        (endsType ·) := by
      refine .peek fun _ _ => .skip (.map (.peek fun _ _ => hname) ?_)
      rintro _ _ ⟨rfl, rfl⟩
      exact .pure ⟨rfl, rfl⟩
    rw [show 2 + n + 1 = n + 2 + 1 by omega]
    refine .peek fun _ _ => .skip (.accept_eq rfl (hpointer.map ?_))
    rintro _ _ ⟨rfl, rfl⟩
    exact .pure ⟨rfl, rfl⟩
  · cases threadSafe with
    | false => cases hl
    | true =>
      obtain rfl := List.mem_singleton.1 hl
      refine FieldLine.read_named ?_ ⟨_, _, rfl, by simp, rfl⟩
      exact .peek fun _ _ => reports_typeName_qualified (hmutex rfl) "Mutex" "."

theorem reports_hookType {threadSafe : Bool}
    (hmutex : threadSafe = true → scope.import? "sync" = some mutex) :
    (typeExpr scope).Reports (structWords (hookFields scope.package mutex threadSafe))
      (fun t names => t = .struct
        ((hookFields scope.package mutex threadSafe).flatMap FieldLine.fields) ∧
          names = ["hooked"]) (endsType ·) := by
  have hlevels : 2 < (FieldLine.wordsOfAll (hookFields scope.package mutex threadSafe)).length := by
    simp [hookFields, FieldLine.wordsOfAll]
  refine (reports_struct (fun n hn => read_hookFields hmutex hn) hlevels).imp
    (fun t names h => ⟨h.1, h.2.trans ?_⟩) fun _ h => h
  cases threadSafe <;> rfl

theorem reports_entryType (hmeans : ref.Means scope interface) :
    (typeExpr scope).Reports (structWords (entryFields interface ref))
      (fun t names => t = .struct [⟨none, interface, none⟩] ∧ names = ref.openNames)
      (endsType ·) := by
  have hlines : ∀ n, 0 < n → ∀ l ∈ entryFields interface ref, l.Read (typeWithin scope n) := by
    intro n hn l hl
    obtain ⟨n, rfl⟩ := Nat.exists_eq_succ_of_ne_zero (Nat.ne_zero_of_lt hn)
    obtain rfl := List.mem_singleton.1 hl
    exact InterfaceRef.read_embedded hmeans n
  refine (reports_struct hlines (by simp [entryFields, FieldLine.wordsOfAll])).imp
    (fun t names h => ⟨h.1, h.2.trans (List.append_nil _)⟩) fun _ h => h

theorem reports_cancelType :
    (typeExpr scope).Reports cancelWords
      (fun t names => t = .func ⟨[], [], false⟩ ∧ names = []) (endsType ·) := by
  refine .bounded fun n hn => ?_
  obtain ⟨n, rfl⟩ := Nat.exists_eq_succ_of_ne_zero (Nat.ne_zero_of_lt hn)
  have hparams : (parameters scope (typeWithin scope n) true).Reports
      [⟨.leftParen, "("⟩, ⟨.rightParen, ")"⟩] (fun list names => list = ⟨[], false⟩ ∧ names = [])
      fun _ => True := by
    have hentries : (bounded (Entry.parseAll (typeWithin scope n))).Reports [⟨.rightParen, ")"⟩]
        (fun entries names => entries = [] ∧ names = []) fun _ => True := by
      refine .bounded fun m hm => ?_
      obtain ⟨m, rfl⟩ := Nat.exists_eq_succ_of_ne_zero (Nat.ne_zero_of_lt hm)
      exact .accept_eq rfl (.pure ⟨rfl, rfl⟩)
    refine .expect rfl fun _ _ => hentries.map ?_
    rintro _ _ ⟨rfl, rfl⟩
    exact .pure ⟨rfl, rfl⟩
  have hsignature : (signature scope (typeWithin scope n)).Reports
      [⟨.leftParen, "("⟩, ⟨.rightParen, ")"⟩] (fun s names => s = ⟨[], [], false⟩ ∧ names = [])
      (endsType ·) := by
    refine (hparams.imp (fun _ _ h => h) fun _ _ => trivial).map ?_
    rintro _ _ ⟨rfl, rfl⟩
    refine .at_ne (fun next hnext => ne_of_endsType hnext rfl) (.peek fun next hnext => ?_)
    have hstarts : next.any startsResult = false := by
      cases next with
      | none => rfl
      | some k => cases k <;> first | rfl | cases hnext
    rw [leading_nil, hstarts]
    exact .pure_bind (.pure ⟨rfl, rfl⟩)
  refine .peek fun _ _ => .skip (hsignature.map ?_)
  rintro _ _ ⟨rfl, rfl⟩
  exact .pure ⟨rfl, rfl⟩

/-- The words of the three types. -/
def typesWords (t : HookFile) (own mutex : PackageId) (interface : GoType) (ref : InterfaceRef) :
    List Word :=
  typeWords t.hookName false (structWords (hookFields own mutex t.threadSafe)) ++
    (typeWords "hooked" false (structWords (entryFields interface ref)) ++
      typeWords "Cancel" true cancelWords)

/-- Declarations of certain objects, which leave certain names open. -/
def Makes (objects : List Object) (names : List String) (ds : List Declaration)
    (ns : List String) : Prop :=
  ds.map Declaration.object = objects ∧ ns = names

theorem declares_end : Declares scope [] (Makes [] []) := by
  intro n hn
  refine (declares_nil n hn).imp ?_ fun _ h => h
  rintro _ _ ⟨rfl, rfl⟩
  exact ⟨rfl, rfl⟩

/-- **The three types are declared**, and then what follows them. -/
theorem declares_types {t : HookFile} (hmutex : t.threadSafe = true →
      scope.import? "sync" = some mutex) (hmeans : ref.Means scope interface) {more : List Word}
    {objects : List Object} {names : List String} (hmore : Declares scope more (Makes objects names)) :
    Declares scope (t.typesWords scope.package mutex interface ref ++ more)
      (Makes (t.objects scope.package mutex interface ++ objects)
        ("hooked" :: (ref.openNames ++ names))) := by
  have htype {name : String} {isAlias : Bool} {type more : List Word} {s : GoType}
      {ns others : List String} {objects : List Object}
      (hs : (typeExpr scope).Reports type (fun u names => u = s ∧ names = ns) (endsType ·))
      (hstart : isAlias ∨ ∃ w ws, type = w :: ws ∧ w.kind ≠ .leftBracket ∧ w.kind ≠ .assign)
      (hmore : Declares scope more (Makes objects others)) :
      Declares scope (typeWords name isAlias type ++ more)
        (Makes (⟨name, .type s isAlias⟩ :: objects) (ns ++ others)) := by
    intro n hn
    refine (Declares.type hs hstart hmore n hn).imp ?_ fun _ h => h
    rintro _ _ ⟨_, _, _, _, rfl, rfl, rfl, hmade, rfl⟩
    exact ⟨congrArg (_ :: ·) hmade, rfl⟩
  have hstruct (ls : List FieldLine) : ∃ w ws, structWords ls = w :: ws ∧ w.kind ≠ .leftBracket ∧
      w.kind ≠ .assign := ⟨_, _, rfl, by simp, by simp⟩
  have hcancel : Declares scope (typeWords "Cancel" true cancelWords ++ more) _ :=
    htype reports_cancelType (.inl rfl) hmore
  have hentry : Declares scope (typeWords "hooked" false (structWords
      (entryFields interface ref)) ++ _) _ :=
    htype (reports_entryType hmeans) (.inr (hstruct _)) hcancel
  have hhook : Declares scope (typeWords t.hookName false (structWords
      (hookFields scope.package mutex t.threadSafe)) ++ _) _ :=
    htype (reports_hookType hmutex) (.inr (hstruct _)) hentry
  rw [fields_hookFields] at hhook
  rw [typesWords, List.append_assoc, List.append_assoc]
  exact hhook

/-! ### The lines of the types -/

theorem lexes_structLine {name : String} (h : Kind.identifier.Writes name) :
    Lexes ("type " ++ name ++ " struct \x7b") [⟨.keyword .typeKw, "type"⟩, ⟨.identifier, name⟩,
      ⟨.keyword .structKw, "struct"⟩, ⟨.leftBrace, "\x7b"⟩] := by
  have hspace : Divided (textOf [.space]) := divided_cons (by decide)
  have hstable : Stable ([Piece.key .typeKw, .space] ++ ([Piece.name name, .space] ++
      ([Piece.key .structKw, .space] ++ [Piece.leftBrace]))) :=
    ((stable_key _).append_free free_space hspace).append_stable
      (((stable_name h).append_free free_space hspace).append_stable
        (((stable_key _).append_free free_space hspace).append_stable free_leftBrace.stable))
  have hlexes : Lexes ("type " ++ name ++ " struct \x7b") _ :=
    hstable.lexes (by simp [Keyword.text])
  rw [hstable.wordsOfText] at hlexes
  simpa [lexemes, Keyword.text, endsAfter, Word.endsStatement, Kind.endsStatement, closing]
    using hlexes

/-- The line that embeds the interface. -/
theorem lexes_refLine (h : ref.Spelled) : Lexes ("\t" ++ ref.text) (ref.words ++ [.lineEnd]) := by
  have hwords : wordsOfText (.blank '\t' :: ref.pieces) = ref.words ++ [.lineEnd] := by
    have hends : endsAfter false ref.pieces = true := by cases ref <;> rfl
    have hpieces : wordsOfText ref.pieces = _ := h.stable.wordsOfText
    rw [hends, ref.lexemes_pieces] at hpieces
    exact hpieces
  refine ⟨.blank '\t' :: ref.pieces, by simp [ref.toList_text], ?_, ?_, hwords⟩
  · exact ⟨Piece.stands_of_next (c := '\t') rfl, h.stable.stand [] (by simp [Clear])⟩
  · exact List.forall_mem_cons.2 ⟨rfl, fun p hp => Piece.isWhole_of_isInline (h.stable.inline p hp)⟩

/-- **The words of the lines of the types**, if the names in them are names. -/
theorem lexesAll_typeLines {t : HookFile} (hhook : Kind.identifier.Writes t.hookName)
    (hmethod : Kind.identifier.Writes t.methodName) (href : ref.text = t.interfaceRef)
    (hspelled : ref.Spelled) (own mutex : PackageId) (interface : GoType) :
    LexesAll t.typeLines (t.typesWords own mutex interface ref) := by
  -- names and references hold no newline, so the comment is one line
  have hcomment : Lexes ("// " ++ t.hookName ++ " calls " ++ t.methodName ++
      " on every appended " ++ t.interfaceRef ++ " in the order they were appended.") [] := by
    have hnewline : '\n' ∉ t.hookName.toList ∧ '\n' ∉ t.methodName.toList ∧
        '\n' ∉ t.interfaceRef.toList :=
      ⟨newline_not_mem_of_writes hhook, newline_not_mem_of_writes hmethod,
        href ▸ hspelled.newline_not_mem⟩
    have hline : ("// " ++ t.hookName ++ " calls " ++ t.methodName ++ " on every appended " ++
        t.interfaceRef ++ " in the order they were appended.").toList = '/' :: '/' ::
          (' ' :: t.hookName.toList ++ " calls ".toList ++ t.methodName.toList ++
            " on every appended ".toList ++ t.interfaceRef.toList ++
              " in the order they were appended.".toList) := by
      simp
    exact lexes_comment hline (by simp [hnewline])
  have hlist : Lexes "\tlist []*hooked" [⟨.identifier, "list"⟩, ⟨.leftBracket, "["⟩,
      ⟨.rightBracket, "]"⟩, ⟨.star, "*"⟩, ⟨.identifier, "hooked"⟩, .lineEnd] :=
    lexes_of_split (by decide)
  have hguard : Lexes "\tmu   sync.Mutex" [⟨.identifier, "mu"⟩, ⟨.identifier, "sync"⟩,
      ⟨.dot, "."⟩, ⟨.identifier, "Mutex"⟩, .lineEnd] := lexes_of_split (by decide)
  -- the only line that is there or not
  have hmutex : LexesAll (if t.threadSafe then ["\tmu   sync.Mutex"] else []) (if t.threadSafe then
      [⟨.identifier, "mu"⟩, ⟨.identifier, "sync"⟩, ⟨.dot, "."⟩, ⟨.identifier, "Mutex"⟩, .lineEnd]
        else []) := by
    split
    · exact .cons hguard .nil
    · exact .nil
  have hclose : Lexes "\x7d" [⟨.rightBrace, "\x7d"⟩, .lineEnd] := lexes_of_split (by decide)
  have hentry : Lexes "type hooked struct \x7b" [⟨.keyword .typeKw, "type"⟩,
      ⟨.identifier, "hooked"⟩, ⟨.keyword .structKw, "struct"⟩, ⟨.leftBrace, "\x7b"⟩] :=
    lexes_of_split (by decide)
  have hcancel : Lexes "type Cancel = func()" [⟨.keyword .typeKw, "type"⟩,
      ⟨.identifier, "Cancel"⟩, ⟨.assign, "="⟩, ⟨.keyword .funcKw, "func"⟩, ⟨.leftParen, "("⟩,
      ⟨.rightParen, ")"⟩, .lineEnd] :=
    lexes_of_split (by decide)
  have hremoves : Lexes "// Cancel removes the entry it was returned for." [] :=
    lexes_comment rfl (by decide)
  have hfront := LexesAll.cons hcomment (.cons (lexes_structLine hhook) (.cons hlist .nil))
  have hbehind := LexesAll.cons hclose <| .cons lexes_empty <| .cons hentry <|
    .cons (href ▸ lexes_refLine hspelled) <| .cons hclose <| .cons lexes_empty <| .cons hremoves <|
      .cons hcancel <| .cons lexes_empty .nil
  have hall := (hfront.append hmutex).append hbehind
  cases hsafe : t.threadSafe <;>
    simpa [typeLines, hsafe, typesWords, typeWords, definitionWords, structWords,
      FieldLine.wordsOfAll, hookFields, entryFields, cancelWords] using hall

end HookFile

end Multicast
