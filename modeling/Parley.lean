import Parley.Agent
import Parley.Agent.Setup
import Parley.Agent.Turn
import Parley.Chat.Delta
import Parley.Chat.Event
import Parley.Chat.History
import Parley.Chat.Message
import Parley.Command
import Parley.Command.Models
import Parley.Command.Presets
import Parley.Command.Report
import Parley.Command.Servers
import Parley.Command.Settings
import Parley.Component
import Parley.Config
import Parley.Decimal.Binary64
import Parley.Decimal.Reading
import Parley.Decimal.Shortest
import Parley.Definition
import Parley.Definition.Error
import Parley.Dictionary
import Parley.Error
import Parley.Files
import Parley.Host
import Parley.Host.Error
import Parley.Http.Authenticator
import Parley.Http.Query
import Parley.Http.Request
import Parley.Json.Basic
import Parley.Json.Decode
import Parley.Json.Parser
import Parley.Json.Printer
import Parley.Main
import Parley.Mcp.Envelope
import Parley.Mcp.Error
import Parley.Mcp.Server
import Parley.Mcp.Session
import Parley.Mcp.Stdio
import Parley.Model
import Parley.OutputPath
import Parley.OutputPath.Builtin
import Parley.OutputPath.Eval
import Parley.OutputPath.Limit
import Parley.OutputPath.Parser
import Parley.OutputPath.Slice
import Parley.OutputPath.Syntax
import Parley.OutputPath.Token
import Parley.OutputPath.Value
import Parley.Preset
import Parley.Proofs.Chat.Wire
import Parley.Proofs.Json.Record
import Parley.Template
import Parley.Text.Blank
import Parley.Text.Delimited
import Parley.Text.Digit
import Parley.Text.Layout
import Parley.Text.Step
import Parley.Toml.Basic
import Parley.Toml.Date
import Parley.Toml.Draft
import Parley.Toml.Parser
import Parley.Toml.Printer
import Parley.Toml.Quoted
import Parley.Toml.Scalar
import Parley.Tool
import Parley.Tool.Call
import Parley.Tool.Description
import Parley.Tool.Error
import Parley.Tool.Invocation
import Parley.Tool.Registry
import Parley.Tool.Rest
import Parley.World
import Parley.Proofs.Agent.Polling
import Parley.Proofs.Chat.Pairing
import Parley.Proofs.Agent.Course
import Parley.Proofs.Agent.Inference
import Parley.Proofs.Agent.Script
import Parley.Proofs.Agent.Life
import Parley.Proofs.Agent.Abandoned
import Parley.Proofs.Agent.Schedule
import Parley.Proofs.Tool.Registry
import Parley.Proofs.Agent.Execution
import Parley.Proofs.Agent.Moments
import Parley.Proofs.Agent.Transcript
import Parley.Proofs.Agent.Recovery
import Parley.Proofs.Agent.Content
import Parley.Proofs.Chat.RoundTrip
import Parley.Proofs.Mcp.Operation
import Parley.Proofs.Mcp.Exchange
import Parley.Proofs.Mcp.Protocol
import Parley.Proofs.Mcp.Dialogue
import Parley.Proofs.Mcp.Interjection
import Parley.Proofs.Mcp.Scope
import Parley.Proofs.Agent.Errand
import Parley.Proofs.Http.Form
import Parley.Proofs.Template.Grammar
import Parley.Proofs.Tool.PathVariable
import Parley.Proofs.Command.Plan
import Parley.Proofs.Command.Rehearsal
import Parley.Proofs.Tool.PathVariable
import Parley.Proofs.Http.Headers
import Parley.Proofs.Agent.Use
import Parley.Proofs.Agent.SystemMessage
import Parley.Proofs.Agent.Lifecycle
import Parley.Proofs.Agent.Twin
import Parley.Proofs.Agent.Confinement
import Parley.Proofs.Dictionary
import Parley.Proofs.Http.Wire
import Parley.Proofs.Tool.Upkeep
import Parley.Proofs.Agent.Equipment
import Parley.Proofs.Json.Renaming
import Parley.Proofs.Tool.Description
import Parley.Proofs.Tool.Definition
import Parley.Proofs.Agent.Receipt
import Parley.Proofs.Json.Reading
import Parley.Proofs.Tool.Arguments
import Parley.Proofs.Agent.Announcement
import Parley.Proofs.Agent.Atomicity
import Parley.Proofs.Agent.Setup
import Parley.Proofs.OutputPath.Integer
import Parley.Proofs.OutputPath.Passing
import Parley.Proofs.OutputPath.Slice
import Parley.Proofs.Mcp.Schema
import Parley.Proofs.Http.Credential
import Parley.Proofs.Tool.Construction
import Parley.Proofs.Files
import Parley.Proofs.Preset.Directory
import Parley.Proofs.Json.Legible
import Parley.Proofs.Preset.Entries
import Parley.Proofs.Config.Loading
import Parley.Proofs.Json.Admission
import Parley.Proofs.Chat.Format
import Parley.Proofs.Agent.Readback
import Parley.Proofs.Json.Literal
import Parley.Proofs.Template.Fill
import Parley.Proofs.Template.Document
import Parley.Proofs.Tool.JsonBody
import Parley.Proofs.Config.Validity
import Parley.Proofs.Preset.Names
import Parley.Proofs.Command.Secrets
import Parley.Proofs.Toml.Quoted
import Parley.Proofs.Toml.Section
import Parley.Proofs.Toml.Document
import Parley.Proofs.Config.Readback
