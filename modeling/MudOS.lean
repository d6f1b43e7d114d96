import MudOS.AddrServerLaws
import MudOS.ApplyCacheLaws
import MudOS.ArgumentListLaws
import MudOS.AsciiPort
import MudOS.BitStringLaws
import MudOS.CallOutLaws
import MudOS.ErrorContextLaws
import MudOS.ExplodeLaws
import MudOS.EvaluatorStackLaws
import MudOS.HeartBeatLaws
import MudOS.IncludePathLaws
import MudOS.InteractivesLaws
import MudOS.LineNumberLaws
import MudOS.LocalsLaws
import MudOS.LeastNumberLaws
import MudOS.MemberArrayLaws
import MudOS.MudSocketLaws
import MudOS.ObjectNameLaws
import MudOS.OperandStackLaws
import MudOS.SprintfPadLaws
import MudOS.SprintfNumberLaws
import MudOS.OutputBufferLaws
import MudOS.ProgramSwapLaws
import MudOS.RangeLaws
import MudOS.ReadFileLaws
import MudOS.ReplaceProgramLaws
import MudOS.RestrictedDestructs
import MudOS.SavedObjectLaws
import MudOS.SentenceLaws
import MudOS.ShadowChainLaws
import MudOS.SharedStringLaws
import MudOS.SimulEfunLaws
import MudOS.SnoopingLaws
import MudOS.UserInputLaws
import MudOS.UserParserLaws
import MudOS.ConditionalLaws
import MudOS.BinaryLaws
import MudOS.SocketLifeLaws
import MudOS.ArrayIntersectionLaws
import MudOS.SortArrayLaws
import MudOS.ForeachLaws
import MudOS.UniqueMappingLaws
import MudOS.ReplaceStringLaws
import MudOS.ProgramStringLaws
import MudOS.FunctionLookupLaws
import MudOS.DirectoryPatternLaws
import MudOS.FilePathLaws
import MudOS.ArithmeticLaws
import MudOS.MappingProductLaws
import MudOS.MappingKeyLaws
import MudOS.MappingWalkLaws
import MudOS.UniqueArrayLaws
import MudOS.RegAssocLaws
import MudOS.SaveSizeLaws
import MudOS.InheritListLaws
import MudOS.VariableNumberLaws
import MudOS.UidLaws
