import DwarfScope.Proofs.Explorer.Endless
import DwarfScope.Proofs.Json.Text
import DwarfScope.Proofs.Layout.Termination
import DwarfScope.Server

/-!
# The server

Two loops share the work: one waits for a command and refuses what is none, the other carries the
commands out. Together they answer each request once and in order, as the loop over lines does, up
to a command that does not end.
-/

namespace DwarfScope.Server

variable {files : Files} {x y : Explorer} {line : Line} {input : List Line} {r : Request}
  {requests : List Request} {answers : List String}

/-! ## Lines -/

theorem lines_cons (b : UInt8) (rest : List UInt8) :
    lines (b :: rest) = match lines rest with
      | [] => [[b]]
      | line :: ls => if b = 10 then [b] :: line :: ls else (b :: line) :: ls := rfl

theorem lines_line {body : List UInt8} (hbody : 10 ∉ body) (rest : List UInt8) :
    lines (body ++ 10 :: rest) = (body ++ [10]) :: lines rest := by
  induction body with
  | nil =>
    rw [List.nil_append, lines_cons]
    cases lines rest <;> simp
  | cons b body ih =>
    simp only [List.mem_cons, not_or] at hbody
    rw [List.cons_append, lines_cons, ih hbody.2]
    simp [Ne.symm hbody.1]

theorem lines_last {body : List UInt8} (hne : body ≠ []) (hbody : 10 ∉ body) :
    lines body = [body] := by
  induction body with
  | nil => exact absurd rfl hne
  | cons b body ih =>
    simp only [List.mem_cons, not_or] at hbody
    rw [lines_cons]
    cases body with
    | nil => rfl
    | cons b' body =>
      rw [ih (by simp) hbody.2]
      simp [Ne.symm hbody.1]

/-- The input is made up of lines that reach to their line ends, which the last one may lack. -/
inductive Splits : List UInt8 → List Line → Prop
  | nil : Splits [] []
  | last {body : List UInt8} : body ≠ [] → 10 ∉ body → Splits body [body]
  | line {body rest : List UInt8} {ls : List Line} : 10 ∉ body → Splits rest ls →
    Splits (body ++ 10 :: rest) ((body ++ [10]) :: ls)

theorem splits_lines (input : List UInt8) : Splits input (lines input) := by
  -- By the length of the input, as what is behind the first line end is shorter.
  by_cases hend : 10 ∈ input
  · obtain ⟨body, rest, hinput, hbody⟩ := List.eq_append_cons_of_mem hend
    have hlt : rest.length < input.length := by
      rw [hinput, List.length_append, List.length_cons]
      omega
    rw [hinput, lines_line hbody]
    exact .line hbody (splits_lines rest)
  · by_cases hne : input = []
    · subst hne
      exact .nil
    · rw [lines_last hne hend]
      exact .last hne hend
termination_by input.length

/-! ## Requests -/

namespace Request

def ends : Request → Bool
  | command .quit | notText => true
  | _ => false

def isBlank : Request → Bool
  | blank => true
  | _ => false

def command? : Request → Option Command
  | command c => some c
  | _ => none

/-- The answers that the explorer `x` has to requests. -/
inductive Answered (files : Files) (x : Explorer) : Request → String → Prop where
  | command {c : Command} {feedback : Feedback} {y : Explorer} :
    x.run files c = some (feedback, y) → Answered files x (command c) feedback.answer
  | malformed (fault : Json.Fault) :
    Answered files x (malformed fault) (Feedback.error (.json fault)).answer

end Request

def asked (input : List Line) : List Request :=
  ((input.map Request.ofLine).takeWhile (!·.ends)).filter (!·.isBlank)

/-- How the first request that ends the session ends it. -/
def ending (input : List Line) : Ending :=
  match (input.map Request.ofLine).find? Request.ends with
  | some .notText => .failed (.file .notText)
  | _ => .quit

theorem asked_cons_of_ends (h : (Request.ofLine line).ends = true) :
    asked (line :: input) = [] := by
  simp [asked, h]

theorem asked_cons_of_blank (h : Request.ofLine line = .blank) :
    asked (line :: input) = asked input := by
  simp [asked, h, Request.ends, Request.isBlank]

theorem asked_cons (hends : (Request.ofLine line).ends = false)
    (hblank : (Request.ofLine line).isBlank = false) :
    asked (line :: input) = Request.ofLine line :: asked input := by
  simp [asked, hends, hblank]

theorem ending_cons (h : (Request.ofLine line).ends = false) :
    ending (line :: input) = ending input := by
  simp [ending, h]

/-- None if a command among the requests does not end. -/
def explorerAfter (files : Files) (x : Explorer) (requests : List Request) : Option Explorer :=
  x.runAll files (requests.filterMap Request.command?)

theorem explorerAfter_append (before after : List Request) :
    explorerAfter files x (before ++ after) =
      (explorerAfter files x before).bind (explorerAfter files · after) := by
  simp [explorerAfter, Explorer.runAll, List.foldlM_append]

theorem explorerAfter_cons (h : explorerAfter files x [r] = some y) :
    explorerAfter files x (r :: requests) = explorerAfter files y requests := by
  rw [← List.singleton_append, explorerAfter_append, h, Option.bind_some]

theorem explorerAfter_command {c : Command} :
    explorerAfter files x [.command c] = (x.run files c).map Prod.snd := by
  simp [explorerAfter, Explorer.runAll, Request.command?]

/-- One answer to each request, by the explorer that the earlier requests lead to. -/
structure Answers (files : Files) (x : Explorer) (requests : List Request)
    (answers : List String) : Prop where
  length_eq : answers.length = requests.length
  each : ∀ (i : Nat) (r : Request) (a : String), requests[i]? = some r → answers[i]? = some a →
    ∃ y, explorerAfter files x (requests.take i) = some y ∧ r.Answered files y a

theorem Answers.nil : Answers files x [] [] := ⟨rfl, by simp⟩

theorem Answers.cons {a : String} (hfirst : r.Answered files x a)
    (hy : explorerAfter files x [r] = some y) (hrest : Answers files y requests answers) :
    Answers files x (r :: requests) (a :: answers) := by
  constructor
  · simp [hrest.length_eq]
  · intro i r' a' hr ha
    cases i with
    | zero =>
      obtain rfl := Option.some.inj hr
      obtain rfl := Option.some.inj ha
      exact ⟨x, rfl, hfirst⟩
    | succ i =>
      rw [List.take_succ_cons, explorerAfter_cons hy]
      exact hrest.each i r' a' hr ha

/-- What is left of the requests at the end: nothing, and then the session ends as it should, or a
command that does not end and all that comes after it. -/
inductive Left (x : Explorer) (ending : Ending) : List Request → Ending → Prop
  | nothing : Left x ending [] ending
  | stalled {c : Command} {rest : List Request} : x.Stalls c →
    Left x ending (.command c :: rest) .endless

/-- Requests are answered in order, up to a command that does not end. -/
def Serves (files : Files) (x : Explorer) (requests : List Request) (ending : Ending)
    (t : Transcript) : Prop :=
  ∃ answered left, requests = answered ++ left ∧ Answers files x answered t.answers ∧
    explorerAfter files x answered = some t.explorer ∧ Left t.explorer ending left t.ended

theorem Serves.cons {a : String} {t : Transcript} {ending : Ending}
    (hfirst : r.Answered files x a) (hy : explorerAfter files x [r] = some y)
    (h : Serves files y requests ending t) :
    Serves files x (r :: requests) ending { t with answers := a :: t.answers } := by
  obtain ⟨answered, left, rfl, hanswers, hafter, hleft⟩ := h
  refine ⟨r :: answered, left, rfl, hanswers.cons hfirst hy, ?_, hleft⟩
  rw [explorerAfter_cons hy]
  exact hafter

/-- Some command of the requests resolves a type without an end when it is its turn. -/
def Stalled (files : Files) (x : Explorer) (requests : List Request) : Prop :=
  ∃ before c after y, requests = before ++ .command c :: after ∧
    explorerAfter files x before = some y ∧ y.Stalls c

theorem Stalled.explorerAfter (h : Stalled files x requests) :
    explorerAfter files x requests = none := by
  obtain ⟨before, c, after, y, rfl, hy, hc⟩ := h
  have hrun : y.run files c = none := Explorer.run_eq_none_iff.mpr hc
  rw [explorerAfter_append, hy, Option.bind_some, ← List.singleton_append, explorerAfter_append,
    explorerAfter_command, hrun]
  rfl

theorem Left.eq_nil_iff {answered left : List Request} {ending ended : Ending}
    (h : Left y ending left ended) (hy : explorerAfter files x answered = some y) :
    left = [] ↔ ¬ Stalled files x (answered ++ left) := by
  cases h with
  | nothing =>
    refine iff_of_true rfl fun hstalled => ?_
    have hnone := hstalled.explorerAfter
    rw [List.append_nil, hy] at hnone
    cases hnone
  | @stalled c rest hc =>
    exact iff_of_false (List.cons_ne_nil _ _) (not_not.mpr ⟨answered, c, rest, y, rfl, hy, hc⟩)

/-! ## One loop for two -/

theorem reply_command {c : Command} (hline : Request.ofLine line = .command c) (hc : c ≠ .quit) :
    reply files x line = match x.run files c with
      | none => ⟨none, x, some .endless⟩
      | some (feedback, x) => ⟨some feedback.answer, x, none⟩ := by
  unfold reply
  rw [hline]
  cases c with
  | quit => exact absurd rfl hc
  | _ => rfl

theorem answerAll_eq (files : Files) (x : Explorer) (input : List Line) :
    answerAll files x input =
      match (await input).command with
      | .error e => ⟨(await input).answers, x, .failed e⟩
      | .ok c =>
        if c = .quit then ⟨(await input).answers, x, .quit⟩
        else match x.run files c with
          | none => ⟨(await input).answers, x, .endless⟩
          | some (feedback, y) =>
            let t := answerAll files y (await input).rest
            { t with answers := (await input).answers ++ feedback.answer :: t.answers } := by
  induction input with
  | nil => rfl
  | cons line rest ih =>
    cases hline : Request.ofLine line with
    | blank =>
      simp only [answerAll, reply, await, hline]
      exact ih
    | command c =>
      by_cases hc : c = .quit
      · subst hc
        simp [answerAll, reply, await, hline]
      · cases hrun : x.run files c with
        | none => simp [answerAll, reply_command hline hc, await, hline, hc, hrun]
        | some r => simp [answerAll, reply_command hline hc, await, hline, hc, hrun]
    | malformed fault =>
      simp only [answerAll, reply, await, hline]
      rw [ih]
      split
      · rfl
      · split
        · rfl
        · split <;> rfl
    | notText => simp [answerAll, reply, await, hline]

/-- Answering at once and answering when the next command is waited for makes no difference to the
order of the answers. -/
theorem serve_eq (files : Files) (feedback : Feedback) (x : Explorer) (input : List Line) :
    serve files feedback x input =
      { answerAll files x input with
        answers := feedback.answer :: (answerAll files x input).answers } := by
  -- Along the loop over commands. The loop over lines does several turns for each of its own.
  fun_induction serve files feedback x input with
  | case1 feedback x input awaited e h =>
    have hcommand : (await input).command = .error e := h
    rw [answerAll_eq, hcommand]
    rfl
  | case2 feedback x input awaited h =>
    have hcommand : (await input).command = .ok .quit := h
    rw [answerAll_eq, hcommand]
    rfl
  | case3 feedback x input awaited c h hc hlt hrun =>
    have hcommand : (await input).command = .ok c := h
    rw [answerAll_eq, hcommand]
    simp only [hc, hrun, if_false]
    rfl
  | case4 feedback x input awaited c h hc hlt feedback' x' hrun t ih =>
    have hcommand : (await input).command = .ok c := h
    rw [answerAll_eq, hcommand]
    simp only [t, ih, hc, hrun, if_false]
    rfl

/-! ## All answers of a session -/

theorem serves_answerAll (files : Files) (x : Explorer) (input : List Line) :
    Serves files x (asked input) (ending input) (answerAll files x input) := by
  induction input generalizing x with
  | nil => exact ⟨[], [], rfl, .nil, rfl, .nothing⟩
  | cons line rest ih =>
    cases hline : Request.ofLine line with
    | blank =>
      rw [asked_cons_of_blank hline, ending_cons (by rw [hline]; rfl)]
      simp only [answerAll, reply, hline]
      exact ih x
    | command c =>
      by_cases hc : c = .quit
      · subst hc
        rw [asked_cons_of_ends (by rw [hline]; rfl)]
        simp only [answerAll, reply, hline, ending, List.map_cons]
        exact ⟨[], [], rfl, .nil, rfl, .nothing⟩
      · have hends : (Request.command c).ends = false := by
          cases c <;> first | rfl | exact absurd rfl hc
        rw [asked_cons (by rw [hline, hends]) (by rw [hline]; rfl),
          ending_cons (by rw [hline, hends]), hline]
        cases hrun : x.run files c with
        | none =>
          simp only [answerAll, reply_command hline hc, hrun]
          exact ⟨[], _, rfl, .nil, rfl, .stalled (Explorer.run_eq_none_iff.mp hrun)⟩
        | some r =>
          obtain ⟨feedback, y⟩ := r
          have hy : explorerAfter files x [.command c] = some y := by
            rw [explorerAfter_command, hrun]
            rfl
          simp only [answerAll, reply_command hline hc, hrun]
          exact (ih y).cons (.command hrun) hy
    | malformed fault =>
      rw [asked_cons (by rw [hline]; rfl) (by rw [hline]; rfl), ending_cons (by rw [hline]; rfl),
        hline]
      simp only [answerAll, reply, hline]
      exact (ih x).cons (.malformed fault) rfl
    | notText =>
      rw [asked_cons_of_ends (by rw [hline]; rfl)]
      simp only [answerAll, reply, hline, ending, List.map_cons]
      exact ⟨[], [], rfl, .nil, rfl, .nothing⟩

theorem unbroken_answer (feedback : Feedback) : Json.Unbroken feedback.answer.toList :=
  Json.unbroken_render feedback.toJson

theorem Answers.unbroken (h : Answers files x requests answers) {a : String} (ha : a ∈ answers) :
    Json.Unbroken a.toList := by
  obtain ⟨i, hi⟩ := List.mem_iff_getElem?.1 ha
  have hlt : i < requests.length := by
    rw [← h.length_eq]
    exact (List.getElem?_eq_some_iff.1 hi).1
  obtain ⟨y, -, hanswered⟩ := h.each i requests[i] a (List.getElem?_eq_getElem hlt) hi
  generalize requests[i] = r at hanswered
  cases hanswered with
  | command _ => exact unbroken_answer _
  | malformed fault => exact unbroken_answer _

/-- After the greeting a session answers the requests of its lines once and in order, each by one
line, and then ends as the lines tell it to. It answers all of them exactly if no command among them
resolves a type without an end. Otherwise it answers those before that command and never ends. -/
theorem session_answers (files : Files) (x : Explorer) (input : List UInt8) :
    let t := session files x input
    Splits input (lines input) ∧
    ∃ answered left answers,
      asked (lines input) = answered ++ left ∧
      t.answers = Feedback.ok.answer :: answers ∧
      Answers files x answered answers ∧
      explorerAfter files x answered = some t.explorer ∧
      Left t.explorer (ending (lines input)) left t.ended ∧
      (left = [] ↔ ¬ Stalled files x (asked (lines input))) ∧
      ∀ answer ∈ t.answers, Json.Unbroken answer.toList := by
  obtain ⟨answered, left, hasked, hanswers, hafter, hleft⟩ :=
    serves_answerAll files x (lines input)
  have hsession : session files x input = _ := serve_eq files .ok x (lines input)
  intro t
  refine ⟨splits_lines input, answered, left, (answerAll files x (lines input)).answers, hasked, ?_,
    hanswers, ?_, ?_, ?_, ?_⟩
  · simp only [t, hsession]
  · simp only [t, hsession, hafter]
  · simp only [t, hsession]
    exact hleft
  · rw [hasked]
    exact hleft.eq_nil_iff hafter
  · simp only [t, hsession]
    intro answer hanswer
    rcases List.mem_cons.1 hanswer with rfl | hmem
    · exact unbroken_answer .ok
    · exact hanswers.unbroken hmem

def listNode : Explorer := Explorer.setEntries {} (Stream.Builder.listNode .constType).build

def requestLines (cs : List Command) : List UInt8 :=
  cs.flatMap fun c => (c.request ++ "\n").toUTF8.data.toList

/-- The type of the link is asked for. Neither this request nor the one behind it is answered. -/
theorem session_unanswered :
    listNode.Reachable ∧
      asked (lines (requestLines [.typeOf "next", .ping])) =
        [.command (.typeOf "next"), .command .ping] ∧
      (session noFiles listNode (requestLines [.typeOf "next", .ping])).answers =
        [Feedback.ok.answer] ∧
      (session noFiles listNode (requestLines [.typeOf "next", .ping])).ended = .endless := by
  have hended : (answerAll noFiles listNode
      (lines (requestLines [.typeOf "next", .ping]))).ended = .endless := by decide +kernel
  have hanswers : (answerAll noFiles listNode
      (lines (requestLines [.typeOf "next", .ping]))).answers = [] := by decide +kernel
  have hsession := serve_eq noFiles .ok listNode (lines (requestLines [.typeOf "next", .ping]))
  refine ⟨(Explorer.Reachable.start _ _).entries _, by decide +kernel, ?_, ?_⟩
  · rw [session, hsession, hanswers]
  · rw [session, hsession, hended]

end DwarfScope.Server
