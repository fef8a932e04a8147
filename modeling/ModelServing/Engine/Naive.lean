import ModelServing.Engine.Batching

/-! The engine of the naive mode: `naive.py`. It tokenizes the prompt, hands the whole decoding to
    `model.generate`, and decodes what comes after the prompt. `model.generate` is the library's, a
    parameter here. -/

namespace ModelServing

/-- The keyword arguments of `model.generate`. -/
structure GenerateArgs where
  inputIds : List ℕ
  maxNewTokens : ℕ
  temperature : ℚ
  topK : ℤ
  topP : ℚ
  repetitionPenalty : ℚ
  doSample : Bool
  padTokenId : Option ℕ

/-- `model.generate` on one prompt: the prompt and the new tokens. The first argument counts the
    calls, `none` is an exception. -/
abbrev ModelGenerate := ℕ → GenerateArgs → Option (List ℕ)

structure GenerationRequest where
  requestId : String
  prompt : String
  maxTokens : ℕ := 256
  temperature : ℚ := 1
  topK : ℤ := 50
  topP : ℚ := 1
  repetitionPenalty : ℚ := 1

structure GenerationResponse where
  requestId : String
  generatedText : String
  prompt : String
  numPromptTokens : ℕ
  numGeneratedTokens : ℕ
  timeToFirstToken : ℚ
  totalTime : ℚ
  tokensPerSecond : ℚ

/-- What `time.perf_counter()` shows at the start of a call, around `model.generate`, and at the end. -/
structure Readings where
  start : ℚ
  ttftStart : ℚ
  ttftEnd : ℚ
  finish : ℚ

structure NaiveEngine where
  requestCount : ℕ := 0
  deriving DecidableEq

namespace NaiveEngine

variable (env : Env) (modelGenerate : ModelGenerate)

def args (request : GenerationRequest) (inputIds : List ℕ) : GenerateArgs where
  inputIds := inputIds
  maxNewTokens := request.maxTokens
  temperature := max request.temperature (1 / 10000000)
  topK := request.topK
  topP := request.topP
  repetitionPenalty := request.repetitionPenalty
  doSample := decide (request.temperature > 0)
  padTokenId := env.padTokenId

/-- The tokens of the prompt, and `outputs[0][num_prompt_tokens:]`. The number of external calls made
    before is `calls`. -/
def generatedIds (request : GenerationRequest) (calls : ℕ) : Except StepError (List ℕ × List ℕ) :=
  match env.tokenizer calls request.prompt 1024 with
  | none => .error .tokenizer
  | some inputIds =>
    match modelGenerate (calls + 1) (args env request inputIds) with
    | none => .error .model
    | some outputs => .ok (inputIds, outputs.drop inputIds.length)

def generate (engine : NaiveEngine) (request : GenerationRequest) (calls : ℕ) (clock : Readings) :
    Except StepError GenerationResponse × NaiveEngine :=
  let engine := { engine with requestCount := engine.requestCount + 1 }
  match generatedIds env modelGenerate request calls with
  | .error err => (.error err, engine)
  | .ok (inputIds, generatedIds) =>
    match env.decode (calls + 2) generatedIds true with
    | none => (.error .decode, engine)
    | some generatedText =>
      let totalTime := clock.finish - clock.start
      let numGenerated := generatedIds.length
      (.ok
        { requestId := request.requestId
          generatedText
          prompt := request.prompt
          numPromptTokens := inputIds.length
          numGeneratedTokens := numGenerated
          timeToFirstToken := clock.ttftEnd - clock.ttftStart
          totalTime
          tokensPerSecond := if totalTime > 0 then numGenerated / totalTime else 0 }, engine)

end NaiveEngine

end ModelServing
