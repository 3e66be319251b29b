import Mathlib.Data.List.Forall2
import Multicast.Command.Arguments
import Multicast.Text.Utf8

/-!
# One dash or two

A flag of more than one letter may be written with one dash or with two. Normalizing gives it two,
and so forgets how it was spelled, but nothing else: up to the first bare `--` each argument is
lengthened by itself, and the rest is left alone (`normalizeFlags_append`). A lengthened flag is not
lengthened again, nor is it a bare `--`; this is why normalizing once is enough, and why arguments in
two spellings end at the same place.

Two arguments are kept however many dashes they have: the name of the program in front, which is no
flag, and an argument that is no text, which is not looked into. There, two spellings stay two
(`normalize_ne_of_dashes`). Everywhere else the spelling is gone before the reader of the arguments
sees them.
-/

namespace Multicast.Command

open Text.Utf8

/-! ### A single argument -/

/-- What stands behind the dashes of a flag of more than one letter: at least two bytes, and no
further dash in front. -/
def IsFlagBody (body : String) : Prop :=
  2 ≤ body.utf8ByteSize ∧ body.toList.head? ≠ some '-'

instance (body : String) : Decidable (IsFlagBody body) :=
  inferInstanceAs (Decidable (_ ∧ _))

/-- A flag behind one dash, and behind two. -/
def spellings (body : String) : List Argument :=
  [("-" ++ body).toUTF8, ("--" ++ body).toUTF8]

/-- **Two spellings of an argument**: the same bytes, or one flag behind one dash or two. -/
inductive SpelledAlike : Argument → Argument → Prop
  | same (arg : Argument) : SpelledAlike arg arg
  | dashes {body : String} {arg arg' : Argument} (hbody : IsFlagBody body)
    (harg : arg ∈ spellings body) (harg' : arg' ∈ spellings body) : SpelledAlike arg arg'

theorem utf8ByteSize_dash (body : String) : ("-" ++ body).utf8ByteSize = body.utf8ByteSize + 1 := by
  rw [String.utf8ByteSize_append, Nat.add_comm]
  rfl

theorem utf8ByteSize_dashes (body : String) :
    ("--" ++ body).utf8ByteSize = body.utf8ByteSize + 2 := by
  rw [String.utf8ByteSize_append, Nat.add_comm]
  rfl

/-- A flag of more than one letter is no bare `--`, behind however many dashes. -/
theorem IsFlagBody.ne {body : String} {arg : Argument} (h : IsFlagBody body)
    (harg : arg ∈ spellings body) : arg ≠ endOfFlags := by
  -- the bare `--` has two bytes, and a flag with its dashes has more
  have hlong : 2 < arg.size := by
    have hbody := h.1
    rcases List.mem_pair.1 harg with rfl | rfl
    · change 2 < ("-" ++ body).utf8ByteSize
      rw [utf8ByteSize_dash]
      omega
    · change 2 < ("--" ++ body).utf8ByteSize
      rw [utf8ByteSize_dashes]
      omega
  rintro rfl
  exact absurd hlong (by decide)

/-- **A flag is shortened** if there is one dash in front of what a flag of more than one letter is
called. -/
theorem isShortened_iff {text : String} :
    isShortened text = true ↔ ∃ body, IsFlagBody body ∧ text = "-" ++ body := by
  constructor
  · intro h
    obtain ⟨hsize, hdash⟩ : text.utf8ByteSize > 2 ∧ _ := by simpa [isShortened] using h
    obtain ⟨cs, htext, hcs⟩ : ∃ cs, text.toList = '-' :: cs ∧ cs.head? ≠ some '-' := by
      split at hdash
      next => cases hdash
      next cs hother htext => exact ⟨cs, htext, fun hhead => by cases cs <;> simp_all⟩
      next => cases hdash
    have heq : text = "-" ++ String.ofList cs := by simp [← String.toList_inj, htext]
    refine ⟨String.ofList cs, ⟨?_, by simpa using hcs⟩, heq⟩
    rw [heq, utf8ByteSize_dash] at hsize
    omega
  · rintro ⟨body, ⟨hsize, hdash⟩, rfl⟩
    have hlong : ("-" ++ body).utf8ByteSize > 2 := by
      rw [utf8ByteSize_dash]
      omega
    have htext : ("-" ++ body).toList = '-' :: body.toList := by simp
    rw [isShortened, htext, decide_eq_true hlong, Bool.true_and]
    split
    next heq => simp_all
    next => rfl
    next hother => exact absurd rfl (hother _)

/-- Behind two dashes nothing is shortened. -/
theorem isShortened_dashes (body : String) : isShortened ("--" ++ body) = false := by
  have htext : ("--" ++ body).toList = '-' :: '-' :: body.toList := by simp
  rw [isShortened, htext]
  exact Bool.and_false _

/-- A shortened flag with its second dash. -/
theorem lengthened_dash {body : String} (h : IsFlagBody body) :
    lengthened ("-" ++ body).toUTF8 = ("--" ++ body).toUTF8 := by
  rw [lengthened, fromUTF8?_toUTF8]
  dsimp only
  rw [if_pos (isShortened_iff.2 ⟨body, h, rfl⟩), ← String.append_assoc]
  rfl

theorem lengthened_dashes (body : String) :
    lengthened ("--" ++ body).toUTF8 = ("--" ++ body).toUTF8 := by
  rw [lengthened, fromUTF8?_toUTF8]
  dsimp only
  rw [isShortened_dashes]
  rfl

/-- An argument that is no text is not looked into. -/
theorem lengthened_of_fromUTF8? {arg : Argument} (h : String.fromUTF8? arg = none) :
    lengthened arg = arg := by
  rw [lengthened, h]

/-- An argument is left alone, or it is a flag that gets its second dash. -/
theorem lengthened_cases (arg : Argument) :
    lengthened arg = arg ∨ ∃ body, IsFlagBody body ∧ arg = ("-" ++ body).toUTF8 ∧
      lengthened arg = ("--" ++ body).toUTF8 := by
  cases htext : String.fromUTF8? arg with
  | none => exact .inl (lengthened_of_fromUTF8? htext)
  | some text =>
    obtain rfl := toUTF8_of_fromUTF8? htext
    cases hshort : isShortened text with
    | false => exact .inl (by rw [lengthened, htext]; dsimp only; rw [hshort]; rfl)
    | true =>
      obtain ⟨body, hbody, rfl⟩ := isShortened_iff.1 hshort
      exact .inr ⟨body, hbody, rfl, lengthened_dash hbody⟩

/-- **A flag is lengthened once.** -/
theorem lengthened_lengthened (arg : Argument) : lengthened (lengthened arg) = lengthened arg := by
  obtain harg | ⟨body, -, -, harg⟩ := lengthened_cases arg
  · rw [harg, harg]
  · rw [harg, lengthened_dashes]

/-- No flag becomes a bare `--`. -/
theorem lengthened_ne {arg : Argument} (h : arg ≠ endOfFlags) : lengthened arg ≠ endOfFlags := by
  obtain harg | ⟨body, hbody, -, harg⟩ := lengthened_cases arg
  · rwa [harg]
  · exact hbody.ne (by simp [harg, spellings])

/-- **Lengthening forgets the spelling.** -/
theorem SpelledAlike.lengthened_eq {arg arg' : Argument} (h : SpelledAlike arg arg') :
    lengthened arg = lengthened arg' := by
  cases h with
  | same => rfl
  | @dashes body _ _ hbody harg harg' =>
    have hboth {a : Argument} (ha : a ∈ spellings body) : lengthened a = ("--" ++ body).toUTF8 := by
      rcases List.mem_pair.1 ha with rfl | rfl
      · exact lengthened_dash hbody
      · exact lengthened_dashes body
    rw [hboth harg, hboth harg']

/-- An argument in another spelling is no more a bare `--` than before. -/
theorem SpelledAlike.ne {arg arg' : Argument} (h : SpelledAlike arg arg') (hne : arg ≠ endOfFlags) :
    arg' ≠ endOfFlags := by
  cases h with
  | same => exact hne
  | dashes hbody _ harg' => exact hbody.ne harg'

/-! ### All arguments -/

/-- **Two spellings of arguments**: they differ at most in how flags in front of the first bare `--`
are spelled. -/
def Respelled (args args' : List Argument) : Prop :=
  ∃ front front' rest, args = front ++ rest ∧ args' = front' ++ rest ∧ endOfFlags ∉ front ∧
    List.Forall₂ SpelledAlike front front'

/-- **In front of a bare `--` each argument is lengthened by itself.** -/
theorem normalizeFlags_append {front : List Argument} (h : endOfFlags ∉ front)
    (rest : List Argument) :
    normalizeFlags (front ++ rest) = front.map lengthened ++ normalizeFlags rest := by
  induction front with
  | nil => rfl
  | cons arg front ih =>
    obtain ⟨harg, hfront⟩ : arg ≠ endOfFlags ∧ endOfFlags ∉ front := by simpa [eq_comm] using h
    rw [List.cons_append, normalizeFlags, if_neg harg, ih hfront]
    rfl

/-- From a bare `--` on, nothing is changed. -/
theorem normalizeFlags_endOfFlags (rest : List Argument) :
    normalizeFlags (endOfFlags :: rest) = endOfFlags :: rest :=
  if_pos rfl

/-- Arguments are those in front of the first bare `--` and those from there on, if there is one. -/
theorem exists_front (args : List Argument) : ∃ front rest, args = front ++ rest ∧
    endOfFlags ∉ front ∧ normalizeFlags rest = rest := by
  induction args with
  | nil => exact ⟨[], [], rfl, by simp, rfl⟩
  | cons arg args ih =>
    by_cases harg : arg = endOfFlags
    · subst harg
      exact ⟨[], endOfFlags :: args, rfl, by simp, normalizeFlags_endOfFlags args⟩
    · obtain ⟨front, rest, rfl, hfront, hrest⟩ := ih
      refine ⟨arg :: front, rest, rfl, ?_, hrest⟩
      simpa using ⟨Ne.symm harg, hfront⟩

theorem endOfFlags_not_mem_map {front : List Argument} (h : endOfFlags ∉ front) :
    endOfFlags ∉ front.map lengthened := by
  rintro hmem
  obtain ⟨arg, harg, heq⟩ := List.mem_map.1 hmem
  exact lengthened_ne (fun hstop => h (hstop ▸ harg)) heq

theorem normalizeFlags_normalizeFlags (args : List Argument) :
    normalizeFlags (normalizeFlags args) = normalizeFlags args := by
  obtain ⟨front, rest, rfl, hfront, hrest⟩ := exists_front args
  rw [normalizeFlags_append hfront, hrest, normalizeFlags_append (endOfFlags_not_mem_map hfront),
    hrest, List.map_map]
  simp [Function.comp_def, lengthened_lengthened]

/-- **Arguments are kept at their places**, but for a second dash in front of flags of more than one
letter. -/
def KeepsPlaces (args args' : List Argument) : Prop :=
  List.Forall₂ (fun arg arg' => arg' = arg ∨ ∃ body, IsFlagBody body ∧
    arg = ("-" ++ body).toUTF8 ∧ arg' = ("--" ++ body).toUTF8) args args'

theorem keepsPlaces_normalizeFlags (args : List Argument) :
    KeepsPlaces args (normalizeFlags args) := by
  obtain ⟨front, rest, rfl, hfront, hrest⟩ := exists_front args
  rw [normalizeFlags_append hfront, hrest]
  refine List.rel_append ?_ (List.forall₂_same.2 fun _ _ => .inl rfl)
  exact List.forall₂_map_right_iff.2 (List.forall₂_same.2 fun arg _ => lengthened_cases arg)

/-- From any bare `--` on, arguments are kept. -/
theorem drop_normalizeFlags {args : List Argument} {n : Nat} (h : args[n]? = some endOfFlags) :
    (normalizeFlags args).drop n = args.drop n := by
  induction args generalizing n with
  | nil => simp at h
  | cons arg args ih =>
    by_cases harg : arg = endOfFlags
    · rw [harg, normalizeFlags_endOfFlags]
    · rw [normalizeFlags, if_neg harg]
      cases n with
      | zero => exact absurd (by simpa using h) harg
      | succ n => exact ih (by simpa using h)

/-- **Arguments in two spellings are normalized alike.** -/
theorem Respelled.normalizeFlags_eq {args args' : List Argument} (h : Respelled args args') :
    normalizeFlags args = normalizeFlags args' := by
  obtain ⟨front, front', rest, rfl, rfl, hfront, halike⟩ := h
  have hmap : front.map lengthened = front'.map lengthened ∧ endOfFlags ∉ front' := by
    clear rest
    induction halike with
    | nil => exact ⟨rfl, by simp⟩
    | @cons arg arg' front front' harg _ ih =>
      obtain ⟨hne, hfront⟩ : arg ≠ endOfFlags ∧ endOfFlags ∉ front := by
        simpa [eq_comm] using hfront
      obtain ⟨hmap, hfront'⟩ := ih hfront
      refine ⟨by rw [List.map_cons, List.map_cons, harg.lengthened_eq, hmap], ?_⟩
      simpa using ⟨(harg.ne hne).symm, hfront'⟩
  rw [normalizeFlags_append hfront, normalizeFlags_append hmap.2, hmap.1]

/-- Arguments with the same program in front and in two spellings behind it are normalized alike. -/
theorem normalize_eq {args args' : List Argument} (hhead : args.head? = args'.head?)
    (h : Respelled args.tail args'.tail) : normalize args = normalize args' := by
  cases args with
  | nil =>
    cases args' with
    | nil => rfl
    | cons program' args' => cases hhead
  | cons program args =>
    cases args' with
    | nil => cases hhead
    | cons program' args' =>
      obtain rfl : program = program' := Option.some.inj hhead
      exact congrArg (program :: ·) h.normalizeFlags_eq

/-- **How flags are spelled does not matter.** Normalizing keeps all arguments at their places, the
name of the program and everything from a bare `--` on as they are, and changes nothing when it is
repeated. Arguments that have the program in common and the rest in two spellings are normalized to
the same ones, and so every reader of normalized arguments answers alike: the same is asked for, or
the same is said in refusal. -/
theorem normalize_respelled (args : List Argument) :
    ((normalize args).length = args.length ∧ KeepsPlaces args (normalize args)) ∧
      (normalize args).head? = args.head? ∧
      (∀ n, args[n + 1]? = some endOfFlags →
        (normalize args).drop (n + 1) = args.drop (n + 1)) ∧
      normalize (normalize args) = normalize args ∧
      ∀ args', args.head? = args'.head? → Respelled args.tail args'.tail →
        normalize args = normalize args' ∧
          ∀ {ε : Type} (read : List Argument → Except ε Arguments),
            parse read args = parse read args' := by
  have hplaces : KeepsPlaces args (normalize args) := by
    cases args with
    | nil => exact .nil
    | cons program args => exact .cons (.inl rfl) (keepsPlaces_normalizeFlags args)
  refine ⟨⟨hplaces.length_eq.symm, hplaces⟩, ?_, fun n hn => ?_, ?_, fun args' hhead h => ?_⟩
  · cases args <;> rfl
  · cases args with
    | nil => cases hn
    | cons program args => exact drop_normalizeFlags hn
  · cases args with
    | nil => rfl
    | cons program args => exact congrArg (program :: ·) (normalizeFlags_normalizeFlags args)
  · have heq : normalize args = normalize args' := normalize_eq hhead h
    exact ⟨heq, fun read => by rw [parse, parse, heq]⟩

/-- Arguments as they are typed. -/
def typed (args : List String) : List Argument :=
  args.map String.toUTF8

/-- A reader that knows one call. -/
def readSafe (args : List Argument) : Except Unit Arguments :=
  if args = typed ["hoog", "--src", "./a.B", "--dst=./c.D", "--safe", "--"] then
    .ok { src := "./a.B", dst := "./c.D", safe := true }
  else .error ()

/-- Flags in two spellings, with a value of its own argument and with one behind an equals sign. -/
theorem normalize_respelled_safe :
    (typed ["hoog", "-src", "./a.B", "--dst=./c.D", "-safe", "--"])[5]? = some endOfFlags ∧
      Respelled (typed ["-src", "./a.B", "--dst=./c.D", "-safe", "--"])
        (typed ["--src", "./a.B", "-dst=./c.D", "-safe", "--"]) ∧
      normalize (typed ["hoog", "-src", "./a.B", "--dst=./c.D", "-safe", "--"]) =
        normalize (typed ["hoog", "--src", "./a.B", "-dst=./c.D", "-safe", "--"]) ∧
      parse readSafe (typed ["hoog", "-src", "./a.B", "--dst=./c.D", "-safe", "--"]) =
        .ok { src := "./a.B", dst := "./c.D", safe := true } ∧
      parse readSafe (typed ["hoog", "--src", "./a.B", "-dst=./c.D", "-safe", "--"]) =
        .ok { src := "./a.B", dst := "./c.D", safe := true } := by
  have hsource : SpelledAlike "-src".toUTF8 "--src".toUTF8 :=
    .dashes (by decide +kernel : IsFlagBody "src") (List.mem_pair.2 (.inl rfl))
      (List.mem_pair.2 (.inr rfl))
  have hdestination : SpelledAlike "--dst=./c.D".toUTF8 "-dst=./c.D".toUTF8 :=
    .dashes (by decide +kernel : IsFlagBody "dst=./c.D") (List.mem_pair.2 (.inr rfl))
      (List.mem_pair.2 (.inl rfl))
  have hfront : endOfFlags ∉ typed ["-src", "./a.B", "--dst=./c.D"] := by
    rw [typed, List.mem_map]
    decide +kernel
  have hrespelled : Respelled (typed ["-src", "./a.B", "--dst=./c.D", "-safe", "--"])
      (typed ["--src", "./a.B", "-dst=./c.D", "-safe", "--"]) :=
    ⟨typed ["-src", "./a.B", "--dst=./c.D"], typed ["--src", "./a.B", "-dst=./c.D"],
      typed ["-safe", "--"], rfl, rfl, hfront,
      .cons hsource <| .cons (.same _) <| .cons hdestination .nil⟩
  obtain ⟨-, -, -, -, halike⟩ :=
    normalize_respelled (typed ["hoog", "-src", "./a.B", "--dst=./c.D", "-safe", "--"])
  obtain ⟨hsame, hparse⟩ :=
    halike (typed ["hoog", "--src", "./a.B", "-dst=./c.D", "-safe", "--"]) rfl hrespelled
  have hread : parse readSafe (typed ["hoog", "-src", "./a.B", "--dst=./c.D", "-safe", "--"]) =
      .ok { src := "./a.B", dst := "./c.D", safe := true } := by
    decide +kernel
  exact ⟨rfl, hrespelled, hsame, hread, hparse readSafe ▸ hread⟩

/-- The value of a flag that ends in a byte of no character. -/
def brokenFlag : ByteArray :=
  "dst=./".toUTF8 ++ ⟨#[0xff]⟩

/-- **The spelling is kept** of the name of the program, and of a flag that is no text: with one dash
and with two, both are normalized to different arguments. -/
theorem normalize_ne_of_dashes :
    (IsFlagBody "hoog" ∧ normalize (typed ["-hoog", "--"]) ≠ normalize (typed ["--hoog", "--"])) ∧
      (2 ≤ brokenFlag.size ∧ brokenFlag[0]? ≠ some 0x2d ∧
        normalize ["hoog".toUTF8, "-".toUTF8 ++ brokenFlag] ≠
          normalize ["hoog".toUTF8, "--".toUTF8 ++ brokenFlag]) := by
  refine ⟨⟨by decide +kernel, by decide +kernel⟩, by decide +kernel, by decide +kernel, ?_⟩
  decide +kernel

end Multicast.Command
