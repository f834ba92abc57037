/-
# `Octos.Agent.SummaryBudget` — what a summary costs

`compact_messages` keeps a running total of the estimates of its lines, each rounded
down by itself, and stops when the total reaches two fifths of the budget or would
exceed it.  What it returns costs more than that total says:

    the remainders of the lines        up to 17/12 of a token a line
    a newline between two lines        a quarter of a token each
    the notice of what is left out     about nine tokens
    the plan's markers                 about 31 tokens, where 24 are set aside
    the floor                          64 tokens, set aside on top of the plan

So the budget holds exactly when all of these, counted once and rounded once, stay
within it.  `trim_to_context_window` hands the whole of what is left of the window to
the summary, which as a message costs four tokens more.
-/
import Octos.Agent.Summary
import Octos.Agent.Trimmers

namespace Octos.Agent

open Octos.Llm Octos.Text

/-! ## Trimming -/

section

variable (json : JsonText) (messages : List Message) (budgetTokens : Nat)

end

/-! ## Sizes add up -/

section

variable {a b text : List Char} {parts : List (List Char)}

variable {context : List Message} {budgetTokens runningTokens k : Nat} {estimates : List Nat}

end

/-! ## The summary -/

section

variable {json : JsonText} {messages : List Message} {budgetTokens k : Nat}

end

end Octos.Agent
